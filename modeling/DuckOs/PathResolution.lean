import DuckOs.VfsLookups

namespace DuckOs.PathResolution
open PathModel VfsModel VfsLookups

/-- The slash, or names behind single slashes. -/
def NormalPath (path : Str) : Prop :=
  ∃ l : List Str, (∀ name ∈ l, ValidName name) ∧ path = absolute l

/-- The last name and the parent of a path give the path, and those of a joined path what was
joined. -/
theorem split_and_join {δ : Type} (s : Vfs δ) :
    (∀ path, NormalPath path → path ≠ ['/'] →
      cwdAndName (dentryName path) (parentPath path) s = .ok path s) ∧
    ∀ name cwd, ValidName name → NormalPath cwd →
      ∃ path, cwdAndName name cwd s = .ok path s ∧ dentryName path = name ∧
        parentPath path = cwd := by
  constructor
  · rintro path ⟨l,hl,rfl⟩ hne
    have hcomp := components_absolute hl
    have hsome : l ≠ [] := by
      rintro rfl
      exact hne rfl
    obtain ⟨l,a,rfl⟩ := (List.eq_nil_or_concat' l).resolve_left hsome
    have ha := hl a (by simp)
    have hdir : ∀ name ∈ l, ValidName name := fun name h => hl name (List.mem_append_left _ h)
    rw [dentryName_append hcomp,parentPath_eq (by rw [hcomp]; exact hsome),hcomp,
      List.dropLast_concat,cwdAndName_eq ha,joinName_absolute hdir]
  · rintro name cwd hname ⟨l,hl,rfl⟩
    have hvalid : ∀ n ∈ l ++ [name], ValidName n := by
      intro n hn
      rcases List.mem_append.mp hn with h | h
      · exact hl n h
      · rw [List.mem_singleton.mp h]
        exact hname
    have hcomp := components_absolute hvalid
    refine ⟨absolute (l ++ [name]),?_,dentryName_append hcomp,?_⟩
    · rw [cwdAndName_eq hname,joinName_absolute hl]
    · rw [parentPath_eq (by rw [hcomp]; simp),hcomp,List.dropLast_concat]

theorem normalPath_absolute {l : List Str} (h : ∀ name ∈ l, ValidName name) :
    NormalPath (absolute l) := ⟨l,h,rfl⟩

theorem split_and_join_nested :
    cwdAndName (dentryName ['/', 'a', '/', 'b']) (parentPath ['/', 'a', '/', 'b']) (Vfs.cold ()) =
      .ok ['/', 'a', '/', 'b'] (Vfs.cold ()) ∧
    ∃ path, cwdAndName ['b'] ['/'] (Vfs.cold ()) = .ok path (Vfs.cold ()) ∧
      dentryName path = ['b'] ∧ parentPath path = ['/'] := by
  have hname : ∀ name ∈ [['a'],['b']], ValidName name := by
    intro name hname
    simp only [List.mem_cons,List.not_mem_nil,or_false] at hname
    rcases hname with rfl | rfl
    · exact ⟨by decide,by decide⟩
    · exact ⟨by decide,by decide⟩
  obtain ⟨split,join⟩ := split_and_join (Vfs.cold ())
  exact ⟨split _ (normalPath_absolute hname) (by decide),
    join _ _ (hname _ (by simp)) (normalPath_absolute (l := []) (by simp))⟩

/-- Whatever slashes a path has, its last name joined to its parent is its normal form. -/
theorem split_and_join_normalizes {δ : Type} (s : Vfs δ) (path : Str) : components path = [] ∨
    cwdAndName (dentryName path) (parentPath path) s = .ok (absolute (components path)) s := by
  rcases List.eq_nil_or_concat' (components path) with hnil | ⟨l,a,hcomp⟩
  · exact .inl hnil
  · have hvalid : ∀ name ∈ l ++ [a], ValidName name := fun name h =>
      validName_of_mem_components (hcomp ▸ h)
    right
    rw [dentryName_append hcomp,parentPath_eq (by rw [hcomp]; simp),hcomp,List.dropLast_concat,
      cwdAndName_eq (hvalid a (by simp)),
      joinName_absolute fun name h => hvalid name (List.mem_append_left _ h)]

end DuckOs.PathResolution
