import Mathlib

/-! Radix trees stored in a heap of frames. A frame is a row of slots, a valid
slot of an inner frame names the next frame, and a key is a path of slot
indices. Nothing is assumed about the words except how they are read. -/
namespace DuckOs.RadixTree

variable {W : Type} {root f i : ℕ} {p : List ℕ}

structure Format (W : Type) where
  valid : W → Bool
  next : W → ℕ

abbrev Heap (W : Type) := ℕ → ℕ → W

/-- The frame at which a path ends. -/
def reach (fmt : Format W) (h : Heap W) : ℕ → List ℕ → Option ℕ
  | f, [] => some f
  | f, i :: is => if fmt.valid (h f i) then reach fmt h (fmt.next (h f i)) is else none

/-- The valid word stored under a key: the path to its frame and the last index. -/
def lookup (fmt : Format W) (h : Heap W) (root : ℕ) (p : List ℕ) (i : ℕ) : Option W :=
  (reach fmt h root p).bind fun f => if fmt.valid (h f i) then some (h f i) else none

/-- No frame is reached by two different paths shorter than `n`. -/
def Separated (fmt : Format W) (h : Heap W) (root n : ℕ) : Prop :=
  ∀ p q f, p.length < n → q.length < n →
    reach fmt h root p = some f → reach fmt h root q = some f → p = q

section Paths

variable {fmt : Format W} {h h' : Heap W}

theorem reach_append (root : ℕ) (p q : List ℕ) :
    reach fmt h root (p ++ q) = (reach fmt h root p).bind fun f => reach fmt h f q := by
  induction p generalizing root with
  | nil => rfl
  | cons i p ih =>
    rw [List.cons_append,reach,reach]
    split
    · exact ih _
    · rfl

theorem reach_snoc (root : ℕ) (p : List ℕ) (i : ℕ) :
    reach fmt h root (p ++ [i]) =
      (reach fmt h root p).bind fun f =>
        if fmt.valid (h f i) then some (fmt.next (h f i)) else none := by
  rw [reach_append]
  rfl

/-- A path reads only the slots on its way. -/
theorem reach_congr
    (same : ∀ q j r f, p = q ++ j :: r → reach fmt h root q = some f → h' f j = h f j) :
    reach fmt h' root p = reach fmt h root p := by
  induction p generalizing root with
  | nil => rfl
  | cons i p ih =>
    have first : h' root i = h root i := same [] i p root rfl rfl
    rw [reach,reach,first]
    split_ifs with hv
    · apply ih
      intro q j r f hp hq
      apply same (i :: q) j r f (by rw [hp]; rfl)
      rw [reach,if_pos hv]
      exact hq
    · rfl

/-- An empty root ends every path but the empty one. -/
theorem reach_blank (blank : ∀ j, fmt.valid (h root j) = false) (hr : reach fmt h root p = some f) :
    p = [] ∧ f = root := by
  cases p with
  | nil =>
    cases hr
    exact ⟨rfl,rfl⟩
  | cons i p =>
    rw [reach,blank i] at hr
    cases hr

theorem lookup_none (hr : reach fmt h root p = none) (i : ℕ) : lookup fmt h root p i = none := by
  rw [lookup,hr]
  rfl

theorem lookup_some (hr : reach fmt h root p = some f) (i : ℕ) :
    lookup fmt h root p i = if fmt.valid (h f i) then some (h f i) else none := by
  rw [lookup,hr]
  rfl

theorem lookup_eq_some {w : W} (hl : lookup fmt h root p i = some w) :
    ∃ f, reach fmt h root p = some f ∧ h f i = w ∧ fmt.valid w = true := by
  obtain ⟨f,hf,hw⟩ := Option.bind_eq_some_iff.mp hl
  split at hw
  · rename_i hv
    cases hw
    exact ⟨f,hf,rfl,hv⟩
  · cases hw

end Paths

section LeafUpdate

variable {fmt : Format W} {h h' : Heap W} {n : ℕ}

section

variable (sep : Separated fmt h root n) (hp : reach fmt h root p = some f) (hn : p.length + 1 = n)
include sep hp hn

/-- Changing words of a leaf frame moves no path. -/
theorem reach_leaf_update (same : ∀ g j, g ≠ f → h' g j = h g j) (q : List ℕ)
    (hq : q.length < n) : reach fmt h' root q = reach fmt h root q := by
  apply reach_congr
  intro a j r g ha hg
  apply same
  intro hgf
  subst hgf
  have hl : a.length < q.length := by rw [ha]; simp
  have hpa := sep a p g (by omega) (by omega) hg hp
  rw [hpa] at hl
  omega

theorem separated_leaf_update (same : ∀ g j, g ≠ f → h' g j = h g j) : Separated fmt h' root n := by
  intro a b g ha hb hga hgb
  rw [reach_leaf_update sep hp hn same a ha] at hga
  rw [reach_leaf_update sep hp hn same b hb] at hgb
  exact sep a b g ha hb hga hgb

theorem lookup_leaf_update (same : ∀ g j, ¬ (g = f ∧ j = i) → h' g j = h g j) (q : List ℕ)
    (hq : q.length + 1 = n) (j : ℕ) : lookup fmt h' root q j =
      if q = p ∧ j = i then (if fmt.valid (h' f i) then some (h' f i) else none)
      else lookup fmt h root q j := by
  have other : ∀ g k, g ≠ f → h' g k = h g k := fun g k hg => same g k fun hc => hg hc.1
  have hr := reach_leaf_update sep hp hn other q (by omega)
  by_cases hqp : q = p ∧ j = i
  · obtain ⟨rfl,rfl⟩ := hqp
    rw [if_pos ⟨rfl,rfl⟩,lookup_some (hr.trans hp)]
  · rw [if_neg hqp]
    unfold lookup
    rw [hr]
    cases hg : reach fmt h root q with
    | none => rfl
    | some g =>
      have hw : h' g j = h g j := by
        apply same
        rintro ⟨rfl,rfl⟩
        exact hqp ⟨sep q p g (by omega) (by omega) hg hp,rfl⟩
      simp only [Option.bind_some,hw]

end

end LeafUpdate

section Growth

variable {fmt : Format W} {h h' : Heap W} {n x : ℕ}

/-- A frame that no path visits is hung into an empty slot of an inner frame. -/
structure Grown (fmt : Format W) (h h' : Heap W) (root n : ℕ) (p : List ℕ) (f i x : ℕ) : Prop where
  parent : reach fmt h root p = some f
  inner : p.length + 1 < n
  empty : fmt.valid (h f i) = false
  fresh : ∀ q, q.length < n → reach fmt h root q ≠ some x
  valid : fmt.valid (h' f i) = true
  next : fmt.next (h' f i) = x
  blank : ∀ j, fmt.valid (h' x j) = false
  same : ∀ g j, g ≠ x → ¬ (g = f ∧ j = i) → h' g j = h g j

section

variable (gr : Grown fmt h h' root n p f i x) (sep : Separated fmt h root n)
include gr sep

theorem Grown.reach_eq (q : List ℕ) (hq : q.length < n) :
    reach fmt h' root q = if q = p ++ [i] then some x else reach fmt h root q := by
  have inner := gr.inner
  have away : ∀ q : List ℕ, q.length < n → ¬ (p ++ [i]) <+: q →
      reach fmt h' root q = reach fmt h root q := by
    intro q hq hne
    apply reach_congr
    intro a j r g ha hg
    have hl : a.length < q.length := by rw [ha]; simp
    apply gr.same
    · rintro rfl
      exact gr.fresh a (by omega) hg
    · rintro ⟨rfl,rfl⟩
      have hpa := sep a p g (by omega) (by omega) hg gr.parent
      apply hne
      rw [ha,hpa]
      exact ⟨r,by simp⟩
  have hp : reach fmt h' root p = some f := by
    rw [away p (by omega) fun hc => by have := hc.length_le; simp at this]
    exact gr.parent
  by_cases hx : (p ++ [i]) <+: q
  · obtain ⟨r,rfl⟩ := hx
    have old : reach fmt h root (p ++ [i] ++ r) = none := by
      rw [List.append_assoc,reach_append,gr.parent]
      simp [reach,gr.empty]
    have new : reach fmt h' root (p ++ [i] ++ r) = reach fmt h' x r := by
      rw [List.append_assoc,reach_append,hp]
      simp [reach,gr.valid,gr.next]
    rw [new,old]
    cases r with
    | nil => simp [reach]
    | cons j r => simp [reach,gr.blank]
  · have hne : q ≠ p ++ [i] := fun hc => hx (hc ▸ List.prefix_rfl)
    rw [if_neg hne,away q hq hx]

theorem Grown.separated : Separated fmt h' root n := by
  intro a b g ha hb hga hgb
  rw [gr.reach_eq sep a ha] at hga
  rw [gr.reach_eq sep b hb] at hgb
  split at hga <;> split at hgb
  · rename_i h1 h2
    rw [h1,h2]
  · cases hga
    exact (gr.fresh b hb hgb).elim
  · cases hgb
    exact (gr.fresh a ha hga).elim
  · exact sep a b g ha hb hga hgb

/-- Hanging an empty frame into the tree stores nothing. -/
theorem Grown.lookup_eq (q : List ℕ) (hq : q.length + 1 = n) (j : ℕ) :
    lookup fmt h' root q j = lookup fmt h root q j := by
  have inner := gr.inner
  have hr := gr.reach_eq sep q (by omega)
  by_cases hqp : q = p ++ [i]
  · rw [if_pos hqp] at hr
    have old : reach fmt h root q = none := by
      rw [hqp,reach_snoc,gr.parent]
      simp [gr.empty]
    rw [lookup_some hr,lookup_none old,gr.blank j]
    rfl
  · rw [if_neg hqp] at hr
    unfold lookup
    rw [hr]
    cases hg : reach fmt h root q with
    | none => rfl
    | some g =>
      have hw : h' g j = h g j := by
        apply gr.same
        · rintro rfl
          exact gr.fresh q (by omega) hg
        · rintro ⟨rfl,rfl⟩
          have := sep q p g (by omega) (by omega) hg gr.parent
          rw [this] at hq
          omega
      simp only [Option.bind_some,hw]

end

end Growth

end DuckOs.RadixTree
