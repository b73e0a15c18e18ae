import Mathlib

namespace DuckOs.PathModel

abbrev Str := List Char

variable {name p a : Str} {l : List Str}

/-- The pieces between the slashes that are not empty. -/
def components (path : Str) : List Str := (path.splitOn '/').filter fun name => name ≠ []

def dentryName (path : Str) : Str :=
  ((path.splitOn '/').reverse.find? fun s => s ≠ []).getD []

def parentPath (path : Str) : Str :=
  if path = ['/'] then ['/']
  else
    let names := components path
    if names.length = 1 then ['/']
    else ['/'].intercalate ([] :: names).dropLast

/-- `cwd_and_name` for a name without a slash. -/
def joinName (name cwd : Str) : Str :=
  (if cwd.getLast? = some '/' then cwd else cwd ++ ['/']) ++ name

def formatPath (path : Str) : Str :=
  path.rdropWhile fun c => c = '/' || c = '\t' || c = '\n'

def isRelativePath (path : Str) : Bool := path.head? ≠ some '/'

def formatRelPath (path : Str) : Str := path.dropWhile fun c => c = '.' || c = '/'

/-- A relative path, from the directory with the given path on. -/
def dirfdAndPath (dirPath path : Str) : Str :=
  let path := formatPath path
  let cwd := if ['.', '.', '/'] <+: path then parentPath dirPath else dirPath
  (if cwd.getLast? = some '/' then cwd else cwd ++ ['/']) ++ formatRelPath path

/-- The branches for `./` and for a bare name do the same. -/
def cwdAndPath (path cwd : Str) : Str :=
  let cwd := if ['.', '.', '/'] <+: path then parentPath cwd else cwd
  (if cwd.getLast? = some '/' then cwd else cwd ++ ['/']) ++ formatRelPath path

/-- Each byte up to the NUL is taken for a character. -/
def cPtrToString (ptr : List UInt8) : Str :=
  (ptr.takeWhile fun ch => ch ≠ 0).map fun ch => Char.ofNat ch.toNat

/-- `as_bytes`. -/
def asBytes (s : Str) : List UInt8 := s.flatMap String.utf8EncodeChar

def ptrAndDirfdToPath (dirPath : Str) (ptr : List UInt8) : Str :=
  let path := cPtrToString ptr
  if isRelativePath path then dirfdAndPath dirPath path else path

/-- What a directory entry may be called. -/
structure ValidName (name : Str) : Prop where
  nonempty : name ≠ []
  noSlash : '/' ∉ name

instance decidableValidName (name : Str) : Decidable (ValidName name) :=
  decidable_of_iff (name ≠ [] ∧ '/' ∉ name) ⟨fun h => ⟨h.1, h.2⟩, fun h => ⟨h.1, h.2⟩⟩

theorem components_append (p q : Str) :
    components (p ++ '/' :: q) = components p ++ components q := by
  rw [components,List.splitOn_append_cons_self,List.filter_append]
  rfl

@[simp] theorem components_nil : components [] = [] := by decide

theorem components_name (h : ValidName name) : components name = [name] := by
  simp [components,List.splitOn_eq_singleton h.noSlash,h.nonempty]

theorem components_join (path cwd : Str) :
    components (joinName path cwd) = components cwd ++ components path := by
  unfold joinName
  split_ifs with hlast
  · obtain ⟨p,rfl⟩ := List.getLast?_eq_some_iff.mp hlast
    rw [List.append_assoc,List.singleton_append,components_append,components_append,
      components_nil,List.append_nil]
  · rw [List.append_assoc,List.singleton_append,components_append]

theorem components_joinName (h : ValidName name) (cwd : Str) :
    components (joinName name cwd) = components cwd ++ [name] := by
  rw [components_join,components_name h]

theorem noSlash_of_mem_splitOn {s : Str} (hs : s ∈ p.splitOn '/') : '/' ∉ s := by
  induction p generalizing s with
  | nil =>
    rw [List.splitOn_nil,List.mem_singleton] at hs
    simp [hs]
  | cons c p ih =>
    rw [List.splitOn_cons_eq_if_modifyHead] at hs
    split_ifs at hs with hc
    · rcases List.mem_cons.mp hs with rfl | hs
      · exact List.not_mem_nil
      · exact ih hs
    · cases hp : p.splitOn '/' with
      | nil => simp [hp] at hs
      | cons w ws =>
        rw [hp,List.modifyHead_cons] at hs
        rcases List.mem_cons.mp hs with rfl | hs
        · intro hmem
          rcases List.mem_cons.mp hmem with rfl | hmem
          · exact hc (beq_self_eq_true _)
          · exact ih (by rw [hp]; exact List.mem_cons_self) hmem
        · exact ih (by rw [hp]; exact List.mem_cons_of_mem _ hs)

theorem validName_of_mem_components (h : name ∈ components p) : ValidName name := by
  rw [components,List.mem_filter] at h
  exact ⟨of_decide_eq_true h.2,noSlash_of_mem_splitOn h.1⟩

theorem dentryName_eq (p : Str) : dentryName p = (components p).getLast?.getD [] := by
  rw [dentryName,components,← List.head?_filter,List.filter_reverse,List.head?_reverse]

/-- The path with these components. -/
def absolute (l : List Str) : Str :=
  if l = [] then ['/'] else l.flatMap fun name => '/' :: name

@[simp] theorem absolute_nil : absolute [] = ['/'] := rfl

theorem absolute_append (l : List Str) (name : Str) :
    absolute (l ++ [name]) = (if l = [] then [] else absolute l) ++ '/' :: name := by
  unfold absolute
  split <;> simp_all

theorem components_absolute (h : ∀ name ∈ l, ValidName name) : components (absolute l) = l := by
  induction l using List.reverseRecOn with
  | nil => decide
  | append_singleton l a ih =>
    have hl := ih fun name hname => h name (List.mem_append_left _ hname)
    have ha := h a (by simp)
    rw [absolute_append,components_append,components_name ha]
    split_ifs with hnil
    · rw [hnil,components_nil]
    · rw [hl]

theorem getLast?_absolute (hne : l ≠ []) (h : ∀ name ∈ l, ValidName name) :
    (absolute l).getLast? ≠ some '/' := by
  induction l using List.reverseRecOn with
  | nil => exact (hne rfl).elim
  | append_singleton l a _ =>
    have ha := h a (by simp)
    rw [absolute_append,List.getLast?_append,List.getLast?_cons]
    intro hlast
    cases hgl : a.getLast? with
    | none => exact ha.nonempty (List.getLast?_eq_none_iff.mp hgl)
    | some c =>
      rw [hgl] at hlast
      obtain rfl : c = '/' := by simpa using hlast
      exact ha.noSlash (List.mem_of_getLast? hgl)

/-- `cwd_and_name` adds a component to a path in normal form. -/
theorem joinName_absolute (h : ∀ name ∈ l, ValidName name) (name : Str) :
    joinName name (absolute l) = absolute (l ++ [name]) := by
  rw [absolute_append,joinName]
  split
  · rename_i hlast
    have hnil : l = [] := by
      by_contra hne
      exact getLast?_absolute hne h hlast
    simp [hnil]
  · rename_i hlast
    have hne : l ≠ [] := by
      rintro rfl
      exact hlast rfl
    rw [if_neg hne,List.append_assoc,List.singleton_append]

theorem intercalate_names (w : Str) (l : List Str) :
    ['/'].intercalate (w :: l) = w ++ l.flatMap fun name => '/' :: name := by
  induction l generalizing w with
  | nil => simp
  | cons a l ih => simp [List.intercalate_cons_cons,ih]

theorem parentPath_eq (h : components p ≠ []) :
    parentPath p = absolute (components p).dropLast := by
  have hroot : p ≠ ['/'] := by
    rintro rfl
    exact h (by decide)
  unfold parentPath
  rw [if_neg hroot]
  dsimp only
  rcases List.eq_nil_or_concat (components p) with hnil | ⟨l,a,hl⟩
  · exact (h hnil).elim
  · rw [List.concat_eq_append] at hl
    rw [hl,List.dropLast_concat,← List.cons_append,List.dropLast_concat,intercalate_names]
    cases l with
    | nil => rfl
    | cons b l => simp [absolute]

theorem components_parentPath (h : components p = l ++ [a]) : components (parentPath p) = l := by
  have hvalid : ∀ name ∈ l, ValidName name := fun name hname =>
    validName_of_mem_components (by rw [h]; exact List.mem_append_left _ hname)
  rw [parentPath_eq (by simp [h]),h,List.dropLast_concat,components_absolute hvalid]

theorem components_parentPath_dropLast (p : Str) :
    components (parentPath p) = (components p).dropLast := by
  rcases List.eq_nil_or_concat (components p) with hnil | ⟨l,a,hl⟩
  · have hparent : parentPath p = ['/'] ∨ parentPath p = [] := by
      unfold parentPath
      split
      · exact .inl rfl
      · simp [hnil]
    rcases hparent with h | h <;> rw [h,hnil] <;> decide
  · rw [List.concat_eq_append] at hl
    rw [components_parentPath hl,hl,List.dropLast_concat]

theorem dentryName_append (h : components p = l ++ [a]) : dentryName p = a := by
  simp [dentryName_eq,h]

theorem exists_last (h : components p ≠ []) :
    components p = components (parentPath p) ++ [dentryName p] ∧
      ValidName (dentryName p) := by
  obtain ⟨l,x,hl⟩ := (List.eq_nil_or_concat' (components p)).resolve_left h
  have hmem : x ∈ components p := by simp [hl]
  rw [components_parentPath hl,dentryName_append hl]
  exact ⟨hl,validName_of_mem_components hmem⟩

end DuckOs.PathModel
