import Mathlib

namespace DuckOs.LinkedChains

variable {α ε : Type} {f g : α → Except ε (Option α)} {a b : α} {l : List α} {m n : ℕ}
  {r : Except ε (List α)} {S : Finset α}

/-- `none` is that the chain goes on after `n` entries. -/
def follow (f : α → Except ε (Option α)) : ℕ → α → Option (Except ε (List α))
  | 0, _ => none
  | n + 1, a =>
    match f a with
    | .error e => some (.error e)
    | .ok none => some (.ok [a])
    | .ok (some b) => (follow f n b).map (Except.map (a :: ·))

theorem follow_error {e : ε} (h : f a = .error e) (n : ℕ) :
    follow f (n + 1) a = some (.error e) := by
  simp only [follow,h]

theorem follow_last (h : f a = .ok none) (n : ℕ) : follow f (n + 1) a = some (.ok [a]) := by
  simp only [follow,h]

theorem follow_next (h : f a = .ok (some b)) (n : ℕ) :
    follow f (n + 1) a = (follow f n b).map (Except.map (a :: ·)) := by
  simp only [follow,h]

theorem follow_mono (h : follow f m a = some r) (hmn : m ≤ n) : follow f n a = some r := by
  induction m generalizing n a r with
  | zero => cases h
  | succ m ih =>
    obtain ⟨n,rfl⟩ : ∃ k, n = k + 1 := ⟨n - 1,by omega⟩
    cases ha : f a with
    | error e => rwa [follow_error ha] at h ⊢
    | ok next =>
      cases next with
      | none => rwa [follow_last ha] at h ⊢
      | some b =>
        rw [follow_next ha] at h ⊢
        obtain ⟨r',hr',rfl⟩ := Option.map_eq_some_iff.mp h
        rw [ih hr' (by omega)]
        rfl

/-- `a` is `n` links away from the end of its chain. -/
def EndsAfter (f : α → Except ε (Option α)) (n : ℕ) (a : α) : Prop :=
  follow f n a = none ∧ follow f (n + 1) a ≠ none

theorem EndsAfter.unique (hm : EndsAfter f m a) (hn : EndsAfter f n a) : m = n := by
  rcases Nat.lt_trichotomy m n with hlt | heq | hlt
  · obtain ⟨r,hr⟩ := Option.ne_none_iff_exists'.mp hm.2
    cases hn.1.symm.trans (follow_mono hr hlt)
  · exact heq
  · obtain ⟨r,hr⟩ := Option.ne_none_iff_exists'.mp hn.2
    cases hm.1.symm.trans (follow_mono hr hlt)

theorem EndsAfter.next (h : EndsAfter f (n + 1) a) :
    ∃ b, f a = .ok (some b) ∧ EndsAfter f n b := by
  obtain ⟨hnot,hend⟩ := h
  cases ha : f a with
  | error e =>
    rw [follow_error ha] at hnot
    cases hnot
  | ok next =>
    cases next with
    | none =>
      rw [follow_last ha] at hnot
      cases hnot
    | some b =>
      rw [follow_next ha] at hnot hend
      exact ⟨b,rfl,Option.map_eq_none_iff.mp hnot,fun hb => hend (by rw [hb]; rfl)⟩

theorem exists_endsAfter (h : follow f n a ≠ none) : ∃ m, EndsAfter f m a := by
  induction n with
  | zero => exact absurd rfl h
  | succ n ih =>
    by_cases hn : follow f n a = none
    · exact ⟨n,hn,h⟩
    · exact ih hn

/-- The entries of a chain are as many different members of the set of successors. -/
theorem EndsAfter.entries [DecidableEq α] (hS : ∀ a b, f a = .ok (some b) → b ∈ S)
    (h : EndsAfter f n a) (ha : a ∈ S) :
    ∃ T ⊆ S, T.card = n + 1 ∧ ∀ x ∈ T, ∃ k ≤ n, EndsAfter f k x := by
  induction n generalizing a with
  | zero =>
    refine ⟨{a},Finset.singleton_subset_iff.mpr ha,Finset.card_singleton a,?_⟩
    intro x hx
    rw [Finset.mem_singleton.mp hx]
    exact ⟨0,le_rfl,h⟩
  | succ n ih =>
    obtain ⟨b,hab,hb⟩ := h.next
    obtain ⟨T,hT,hcard,hends⟩ := ih hb (hS a b hab)
    have hnew : a ∉ T := by
      intro hmem
      obtain ⟨k,hk,hak⟩ := hends a hmem
      have := hak.unique h
      omega
    refine ⟨insert a T,Finset.insert_subset ha hT,?_,?_⟩
    · rw [Finset.card_insert_of_notMem hnew,hcard]
    · intro x hx
      rcases Finset.mem_insert.mp hx with rfl | hx
      · exact ⟨n + 1,le_rfl,h⟩
      · obtain ⟨k,hk,hxk⟩ := hends x hx
        exact ⟨k,by omega,hxk⟩

/-- A chain that ends at all ends within one entry more than there are successors. -/
theorem follow_bounded [DecidableEq α] (hS : ∀ a b, f a = .ok (some b) → b ∈ S)
    (h : follow f n a = some r) : follow f (S.card + 1) a = some r := by
  obtain ⟨m,hm⟩ := exists_endsAfter (by rw [h]; exact Option.some_ne_none r)
  have hle : m ≤ S.card := by
    cases m with
    | zero => exact Nat.zero_le _
    | succ m =>
      obtain ⟨b,hab,hb⟩ := hm.next
      obtain ⟨T,hT,hcard,-⟩ := hb.entries hS (hS a b hab)
      rw [← hcard]
      exact Finset.card_le_card hT
  obtain ⟨r',hr'⟩ := Option.ne_none_iff_exists'.mp hm.2
  have hsame : some r' = some r := by
    rw [← follow_mono hr' (le_max_left (m + 1) n),← follow_mono h (le_max_right (m + 1) n)]
  rw [← hsame]
  exact follow_mono hr' (by omega)

/-- A chain comes to an end exactly if no endless row of links starts there. -/
theorem exists_follow_iff_acc :
    (∃ n r, follow f n a = some r) ↔ Acc (fun b a => f a = .ok (some b)) a := by
  constructor
  · rintro ⟨n,r,h⟩
    induction n generalizing a r with
    | zero => cases h
    | succ n ih =>
      refine .intro a ?_
      intro b hab
      rw [follow_next hab] at h
      obtain ⟨r',hr',-⟩ := Option.map_eq_some_iff.mp h
      exact ih r' hr'
  · intro h
    induction h with
    | intro a _ ih =>
      cases ha : f a with
      | error e => exact ⟨1,_,follow_error ha 0⟩
      | ok next =>
        cases next with
        | none => exact ⟨1,_,follow_last ha 0⟩
        | some b =>
          obtain ⟨n,r,hr⟩ := ih b ha
          refine ⟨n + 1,Except.map (a :: ·) r,?_⟩
          rw [follow_next ha,hr]
          rfl

/-- Every entry of the list names the next one, and the last one ends the chain. -/
def IsChain (f : α → Except ε (Option α)) : List α → Prop
  | [] => False
  | [a] => f a = .ok none
  | a :: b :: l => f a = .ok (some b) ∧ IsChain f (b :: l)

theorem follow_of_isChain (h : IsChain f (a :: l)) :
    follow f (l.length + 1) a = some (.ok (a :: l)) := by
  induction l generalizing a with
  | nil => exact follow_last h 0
  | cons b l ih =>
    rw [List.length_cons,follow_next h.1,ih h.2]
    rfl

theorem follow_ok (h : follow f n a = some (.ok l)) : ∀ x ∈ l, ∃ next, f x = .ok next := by
  induction n generalizing a l with
  | zero => cases h
  | succ n ih =>
    cases ha : f a with
    | error e =>
      rw [follow_error ha] at h
      cases h
    | ok next =>
      cases next with
      | none =>
        rw [follow_last ha] at h
        cases h
        simp [ha]
      | some b =>
        rw [follow_next ha] at h
        obtain ⟨r,hr,hmap⟩ := Option.map_eq_some_iff.mp h
        cases r with
        | error e => cases hmap
        | ok rest =>
          cases hmap
          simpa [ha] using ih hr

theorem IsChain.suffix {l' : List α} (h : IsChain f (l ++ a :: l')) : IsChain f (a :: l') := by
  induction l with
  | nil => exact h
  | cons b l ih =>
    cases l with
    | nil => exact h.2
    | cons c l => exact ih h.2

theorem IsChain.congr (h : IsChain f l) (hfg : ∀ x ∈ l, g x = f x) : IsChain g l := by
  induction l with
  | nil => exact h
  | cons a l ih =>
    cases l with
    | nil => exact (hfg a List.mem_cons_self).trans h
    | cons b l =>
      exact ⟨(hfg a List.mem_cons_self).trans h.1,
        ih h.2 fun x hx => hfg x (List.mem_cons_of_mem a hx)⟩

theorem IsChain.ok_of_mem (h : IsChain f l) (ha : a ∈ l) : ∃ next, f a = .ok next := by
  obtain ⟨before,after,rfl⟩ := List.append_of_mem ha
  have hrest := h.suffix
  cases after with
  | nil => exact ⟨none,hrest⟩
  | cons b after => exact ⟨some b,hrest.1⟩

theorem IsChain.last (h : IsChain f (l ++ [a])) : f a = .ok none := h.suffix

/-- An entry is hung on at the end. -/
theorem IsChain.extend (h : IsChain f (l ++ [a])) (hl : ∀ x ∈ l, g x = f x)
    (ha : g a = .ok (some b)) (hb : g b = .ok none) : IsChain g (l ++ [a] ++ [b]) := by
  induction l with
  | nil => exact ⟨ha,hb⟩
  | cons c l ih =>
    have hc := hl c List.mem_cons_self
    have hrest : ∀ x ∈ l, g x = f x := fun x hx => hl x (List.mem_cons_of_mem c hx)
    cases l with
    | nil => exact ⟨hc.trans h.1,ih h.2 hrest⟩
    | cons d l => exact ⟨hc.trans h.1,ih h.2 hrest⟩

/-- The last entry is cut off. -/
theorem IsChain.cut (h : IsChain f (l ++ [a] ++ [b])) (hl : ∀ x ∈ l, g x = f x)
    (ha : g a = .ok none) : f a = .ok (some b) ∧ IsChain g (l ++ [a]) := by
  induction l with
  | nil => exact ⟨h.1,ha⟩
  | cons c l ih =>
    have hc := hl c List.mem_cons_self
    have hrest : ∀ x ∈ l, g x = f x := fun x hx => hl x (List.mem_cons_of_mem c hx)
    cases l with
    | nil => exact ⟨(ih h.2 hrest).1,hc.trans h.1,(ih h.2 hrest).2⟩
    | cons d l => exact ⟨(ih h.2 hrest).1,hc.trans h.1,(ih h.2 hrest).2⟩

end DuckOs.LinkedChains
