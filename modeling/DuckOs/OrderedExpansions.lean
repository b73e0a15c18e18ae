import DuckOs.OrderedMaps

/-! Replacing entries of an ordered map one after the other, each by entries of its own:
if no two entries claim the same key, the result is the union of what they are replaced by. -/
namespace DuckOs.OrderedExpansions
open OrderedMaps

variable {α : Type} {l : List (ℕ × α)} {i : ℕ} {x : α}

def insertEntries (t : BTreeMap α) (l : List (ℕ × α)) : BTreeMap α :=
  l.foldl (fun t e => t.insert e.1 e.2) t

theorem insertEntries_eq_some (nodup : (l.map (·.1)).Nodup) (t : BTreeMap α) (k : ℕ) (v : α) :
    (insertEntries t l)[k]? = some v ↔ (k, v) ∈ l ∨ (k ∉ l.map (·.1) ∧ t[k]? = some v) := by
  induction l generalizing t with
  | nil => simp [insertEntries]
  | cons e l ih =>
    rw [List.map_cons,List.nodup_cons] at nodup
    change (insertEntries (t.insert e.1 e.2) l)[k]? = some v ↔ _
    rw [ih nodup.2,getElem?_insert]
    by_cases hk : k = e.1
    · subst hk
      rw [if_pos rfl]
      have hother : (e.1, v) ∉ l := fun hc => nodup.1 (List.mem_map.mpr ⟨_,hc,rfl⟩)
      constructor
      · rintro (hc | ⟨-,hv⟩)
        · exact (hother hc).elim
        · cases hv
          exact .inl (List.mem_cons_self ..)
      · rintro (hc | ⟨hc,-⟩)
        · rcases List.mem_cons.mp hc with he | hin
          · exact .inr ⟨nodup.1,by rw [← he]⟩
          · exact (hother hin).elim
        · exact (hc (by simp)).elim
    · rw [if_neg hk]
      have hne : (k, v) ≠ e := fun hc => hk (by rw [← hc])
      simp [hk,hne]

theorem insertEntries_other {k : ℕ} (hk : k ∉ l.map (·.1)) (t : BTreeMap α) :
    (insertEntries t l)[k]? = t[k]? := by
  induction l generalizing t with
  | nil => rfl
  | cons e l ih =>
    rw [List.map_cons,List.mem_cons,not_or] at hk
    change (insertEntries (t.insert e.1 e.2) l)[k]? = _
    rw [ih hk.2,getElem?_insert,if_neg hk.1]

section Rounds

/-- The entry under `i` is replaced by its parts. -/
def expandAt (parts : ℕ → α → List (ℕ × α)) (t : BTreeMap α) (i : ℕ) : BTreeMap α :=
  match t[i]? with
  | none => t
  | some x => insertEntries t (parts i x)

/-- The parts of an entry stand under different keys, its own among them, and no key is claimed
by two entries. -/
structure Separate (t : BTreeMap α) (parts : ℕ → α → List (ℕ × α)) : Prop where
  nodup : ∀ (i : ℕ) (x : α), t[i]? = some x → ((parts i x).map (·.1)).Nodup
  own : ∀ (i : ℕ) (x : α), t[i]? = some x → i ∈ (parts i x).map (·.1)
  apart : ∀ (i j : ℕ) (x y : α) (k : ℕ), t[i]? = some x → t[j]? = some y →
    k ∈ (parts i x).map (·.1) → k ∈ (parts j y).map (·.1) → i = j

variable {t : BTreeMap α} {parts : ℕ → α → List (ℕ × α)}

theorem expandAt_some (hi : t[i]? = some x) : expandAt parts t i = insertEntries t (parts i x) := by
  unfold expandAt
  rw [hi]

theorem expand_rounds (sep : Separate t parts) (l : List ℕ) (nodup : l.Nodup)
    (present : ∀ i ∈ l, t[i]? ≠ none) (k : ℕ) (v : α) :
    (l.foldl (expandAt parts) t)[k]? = some v ↔
      (t[k]? = some v ∧ ∀ i ∈ l, ∀ x, t[i]? = some x → k ∉ (parts i x).map (·.1)) ∨
        ∃ i ∈ l, ∃ x, t[i]? = some x ∧ (k, v) ∈ parts i x := by
  induction l using List.reverseRecOn generalizing k v with
  | nil => simp
  | append_singleton l i ih =>
    have hi : i ∉ l := by
      intro hc
      exact (List.nodup_append.mp nodup).2.2 i hc i (by simp) rfl
    have ih := fun k v => ih (List.nodup_append.mp nodup).1
      (fun j hj => present j (List.mem_append_left _ hj)) k v
    obtain ⟨x,hx⟩ := Option.ne_none_iff_exists'.mp (present i (by simp))
    have hstill : (l.foldl (expandAt parts) t)[i]? = some x := by
      refine (ih i x).mpr (.inl ⟨hx,fun j hj y hy hc => ?_⟩)
      exact hi (sep.apart i j x y i hx hy (sep.own i x hx) hc ▸ hj)
    rw [List.foldl_append,List.foldl_cons,List.foldl_nil,expandAt_some hstill,
      insertEntries_eq_some (sep.nodup i x hx),ih]
    constructor
    · rintro (hin | ⟨hout,⟨hk,hfar⟩ | ⟨j,hj,y,hy,hin⟩⟩)
      · exact .inr ⟨i,by simp,x,hx,hin⟩
      · refine .inl ⟨hk,fun j hj y hy => ?_⟩
        rcases List.mem_append.mp hj with hj | hj
        · exact hfar j hj y hy
        · rw [List.mem_singleton.mp hj,hx] at hy
          cases hy
          rwa [List.mem_singleton.mp hj]
      · exact .inr ⟨j,List.mem_append_left _ hj,y,hy,hin⟩
    · rintro (⟨hk,hfar⟩ | ⟨j,hj,y,hy,hin⟩)
      · refine .inr ⟨hfar i (by simp) x hx,.inl ⟨hk,fun j hj => hfar j ?_⟩⟩
        exact List.mem_append_left _ hj
      · rcases List.mem_append.mp hj with hj | hj
        · refine .inr ⟨fun hc => ?_,.inr ⟨j,hj,y,hy,hin⟩⟩
          have hsame := sep.apart i j x y k hx hy hc (List.mem_map_of_mem hin)
          exact hi (hsame ▸ hj)
        · have hji := List.mem_singleton.mp hj
          subst hji
          rw [hx] at hy
          cases hy
          exact .inl hin

theorem expand_rounds_other (sep : Separate t parts) {l : List ℕ} (nodup : l.Nodup)
    (present : ∀ i ∈ l, t[i]? ≠ none) (hx : t[i]? = some x) (hi : i ∉ l) :
    (l.foldl (expandAt parts) t)[i]? = some x := by
  refine (expand_rounds sep l nodup present i x).mpr (.inl ⟨hx,fun j hj y hy hc => ?_⟩)
  exact hi (sep.apart i j x y i hx hy (sep.own i x hx) hc ▸ hj)

theorem expand_union (sep : Separate t parts) {l : List ℕ} (nodup : l.Nodup)
    (present : ∀ i ∈ l, t[i]? ≠ none)
    (rest : ∀ (i : ℕ) (x : α), t[i]? = some x → i ∉ l → parts i x = [(i, x)]) (k : ℕ) (v : α) :
    (l.foldl (expandAt parts) t)[k]? = some v ↔
      ∃ (i : ℕ) (x : α), t[i]? = some x ∧ (k, v) ∈ parts i x := by
  rw [expand_rounds sep l nodup present]
  constructor
  · rintro (⟨hk,hfar⟩ | ⟨i,-,x,hx,hin⟩)
    · have hkl : k ∉ l := fun hc => hfar k hc v hk (sep.own k v hk)
      exact ⟨k,v,hk,by simp [rest k v hk hkl]⟩
    · exact ⟨i,x,hx,hin⟩
  · rintro ⟨i,x,hx,hin⟩
    by_cases hi : i ∈ l
    · exact .inr ⟨i,hi,x,hx,hin⟩
    · rw [rest i x hx hi,List.mem_singleton,Prod.mk.injEq] at hin
      obtain ⟨rfl,rfl⟩ := hin
      refine .inl ⟨hx,fun j hj y hy hc => ?_⟩
      exact hi (sep.apart k j v y k hx hy (sep.own k v hx) hc ▸ hj)

end Rounds

end DuckOs.OrderedExpansions
