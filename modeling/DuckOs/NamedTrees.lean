import Mathlib

/-! Trees whose edges have names: walking down from a root, and what happens to
the walks when the edges to a leaf are changed. -/
namespace DuckOs.NamedTrees
open Function

variable {ν α : Type} {child child' : ν → α → Option ν} {root n n' : ν} {a : α} {l l' : List α}

theorem update_cases {κ β : Type} [DecidableEq κ] {f : κ → Option β} {k n : κ} {b b' : β}
    (h : update f k (some b) n = some b') : n = k ∧ b' = b ∨ n ≠ k ∧ f n = some b' := by
  by_cases heq : n = k
  · rw [heq,update_self] at h
    exact .inl ⟨heq,(Option.some.inj h).symm⟩
  · rw [update_of_ne heq] at h
    exact .inr ⟨heq,h⟩

def walk (child : ν → α → Option ν) : ν → List α → Option ν
  | n, [] => some n
  | n, a :: l => (child n a).bind fun c => walk child c l

theorem walk_append (child : ν → α → Option ν) (n : ν) (l l' : List α) :
    walk child n (l ++ l') = (walk child n l).bind fun c => walk child c l' := by
  induction l generalizing n with
  | nil => rfl
  | cons a l ih =>
    rw [List.cons_append,walk,walk]
    cases child n a with
    | none => rfl
    | some c => exact ih c

/-- The names lead from the root to the node, edge by edge. -/
inductive Linked (child : ν → α → Option ν) (root : ν) : List α → ν → Prop where
  | root : Linked child root [] root
  | step {l : List α} {n c : ν} {a : α} (h : Linked child root l n) (edge : child n a = some c) :
      Linked child root (l ++ [a]) c

theorem Linked.walk_eq (h : Linked child root l n) : walk child root l = some n := by
  induction h with
  | root => rfl
  | step _ edge ih => simp [walk_append,ih,walk,edge]

theorem linked_of_walk (h : walk child root l = some n) : Linked child root l n := by
  induction l using List.reverseRecOn generalizing n with
  | nil =>
    cases h
    exact .root
  | append_singleton l a ih =>
    rw [walk_append,Option.bind_eq_some_iff] at h
    obtain ⟨c,hc,hn⟩ := h
    rw [walk,Option.bind_eq_some_iff] at hn
    obtain ⟨d,hd,hdn⟩ := hn
    cases hdn
    exact .step (ih hc) hd

theorem linked_iff_walk : Linked child root l n ↔ walk child root l = some n :=
  ⟨Linked.walk_eq,linked_of_walk⟩

theorem Linked.unique (h : Linked child root l n) (h' : Linked child root l n') : n = n' :=
  Option.some.inj (h.walk_eq.symm.trans h'.walk_eq)

theorem Linked.of_append (h : Linked child root (l ++ [a]) n) :
    ∃ q, Linked child root l q ∧ child q a = some n := by
  have hw := h.walk_eq
  rw [walk_append,Option.bind_eq_some_iff] at hw
  obtain ⟨q,hq,hn⟩ := hw
  rw [walk,Option.bind_eq_some_iff] at hn
  obtain ⟨d,hd,hdn⟩ := hn
  cases hdn
  exact ⟨q,linked_of_walk hq,hd⟩

/-- Walks stay when edges are only added. -/
theorem Linked.mono (h : Linked child root l n)
    (hkeep : ∀ q a c, child q a = some c → child' q a = some c) : Linked child' root l n := by
  induction h with
  | root => exact .root
  | step _ edge ih => exact .step ih (hkeep _ _ _ edge)

/-- A leaf lies on no walk but those that end there, so the others stay when the edges to it go. -/
theorem Linked.without_leaf (h : Linked child root l n) {leaf : ν} (hne : n ≠ leaf)
    (hleaf : ∀ a, child leaf a = none)
    (hkeep : ∀ q a c, child q a = some c → c ≠ leaf → child' q a = some c) :
    Linked child' root l n := by
  induction h with
  | root => exact .root
  | @step l q c a _ edge ih =>
    have hq : q ≠ leaf := by
      rintro rfl
      rw [hleaf] at edge
      cases edge
    exact .step (ih hq) (hkeep _ _ _ edge hne)

/-- A walk that is not longer than any to the node does not use the edges of the node. -/
theorem Linked.without_edges (h : Linked child root l n) {q : ν}
    (hshort : ∀ l', Linked child root l' q → l.length ≤ l'.length)
    (hkeep : ∀ p a c, child p a = some c → p ≠ q → child' p a = some c) :
    Linked child' root l n := by
  induction h with
  | root => exact .root
  | @step l p c a hp edge ih =>
    simp only [List.length_append,List.length_singleton] at hshort
    have hpq : p ≠ q := by
      rintro rfl
      have := hshort l hp
      omega
    exact .step (ih fun l' hl' => by have := hshort l' hl'; omega) (hkeep _ _ _ edge hpq)

end DuckOs.NamedTrees
