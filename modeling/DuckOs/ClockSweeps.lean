import Mathlib

/-! The hand of a clock cache goes round over the slots. Pinned slots are passed, marked ones
lose their mark, and the first other one is chosen. -/
namespace DuckOs.ClockSweeps

variable {α β : Type} {f : α → β} {i : ℕ}

structure Clock (α : Type) where
  pinned : α → Bool
  marked : α → Bool
  unmark : α → α
  pinned_unmark : ∀ e, pinned (unmark e) = pinned e
  marked_unmark : ∀ e, marked (unmark e) = false

namespace Clock

variable (k : Clock α)

/-- The loop over `n` slots, with a bound on its rounds. -/
def sweep (n : ℕ) : ℕ → List α → ℕ → Option (List α × ℕ)
  | 0, _, _ => none
  | fuel + 1, slots, hand =>
    match slots[hand]? with
    | none => none
    | some e =>
      if k.pinned e then sweep n fuel slots ((hand + 1) % n)
      else if k.marked e then sweep n fuel (slots.set hand (k.unmark e)) ((hand + 1) % n)
      else some (slots, hand)

/-- The position that a list of slots in the order of the hand gives up: the first one that is
neither pinned nor marked, or the first one that is not pinned if the others are marked. -/
def chosen (slots : List α) : Option ℕ :=
  (slots.findIdx? fun e => !k.pinned e && !k.marked e).or (slots.findIdx? fun e => !k.pinned e)

/-- What a slot becomes when the hand passes it. -/
def passed (e : α) : α := if k.pinned e then e else k.unmark e

variable {k} {n hand : ℕ} {slots rest l : List α} {x y : α}

@[simp] theorem pinned_passed (e : α) : k.pinned (k.passed e) = k.pinned e := by
  unfold passed
  split
  · rfl
  · exact k.pinned_unmark e

theorem marked_passed (h : k.pinned x = false) : k.marked (k.passed x) = false := by
  unfold passed
  rw [if_neg (by simp [h])]
  exact k.marked_unmark x

theorem apply_passed (hf : ∀ e, f (k.unmark e) = f e) (e : α) : f (k.passed e) = f e := by
  unfold passed
  split
  · rfl
  · exact hf e

/-- The slot under the hand comes first. -/
theorem getElem?_of_rotate (hlt : hand < slots.length) (h : slots.rotate hand = x :: rest) :
    slots[hand]? = some x := by
  rw [List.rotate_eq_drop_append_take hlt.le,List.drop_eq_getElem_cons hlt] at h
  rw [List.getElem?_eq_getElem hlt,(List.cons.inj h).1]

theorem rotate_set (hlt : hand < slots.length) (h : slots.rotate hand = x :: rest) (y : α) :
    (slots.set hand y).rotate ((hand + 1) % slots.length) = rest ++ [y] := by
  rw [List.rotate_eq_drop_append_take hlt.le,List.drop_eq_getElem_cons hlt,List.cons_append] at h
  obtain ⟨-,rfl⟩ := List.cons.inj h
  have hmod : (slots.set hand y).rotate ((hand + 1) % slots.length) =
      (slots.set hand y).rotate (hand + 1) := by
    rw [← List.length_set (a := y) (i := hand),List.rotate_mod]
  rw [hmod,List.rotate_eq_drop_append_take (by rw [List.length_set]; exact hlt),
    List.drop_set_of_lt (Nat.lt_succ_self hand),List.take_set,List.take_succ_eq_append_getElem hlt,
    List.append_assoc]
  rw [List.set_append_right _ _ (by rw [List.length_take]; omega)]
  simp [hlt.le]

theorem map_set_passed (hf : ∀ e, f (k.unmark e) = f e) (h : slots[hand]? = some x) :
    (slots.set hand (k.passed x)).map f = slots.map f := by
  obtain ⟨hlt,rfl⟩ := List.getElem?_eq_some_iff.mp h
  rw [List.map_set,apply_passed hf]
  apply List.ext_getElem?
  intro i
  rw [List.getElem?_set]
  split
  · rename_i hi
    subst hi
    simp [hlt]
  · rfl

/-- One slot is passed. -/
theorem sweep_next (h : slots[hand]? = some x) (hx : k.pinned x = true ∨ k.marked x = true)
    (fuel : ℕ) : k.sweep n (fuel + 1) slots hand =
      k.sweep n fuel (slots.set hand (k.passed x)) ((hand + 1) % n) := by
  rw [sweep,h]
  dsimp only
  by_cases hp : k.pinned x = true
  · obtain ⟨hlt,rfl⟩ := List.getElem?_eq_some_iff.mp h
    rw [if_pos hp,passed,if_pos hp,List.set_getElem_self]
  · rw [if_neg hp,if_pos (hx.resolve_left hp),passed,if_neg hp]

theorem sweep_found (h : slots[hand]? = some x) (hp : k.pinned x = false)
    (hm : k.marked x = false) (fuel : ℕ) :
      k.sweep n (fuel + 1) slots hand = some (slots, hand) := by
  rw [sweep,h]
  simp [hp,hm]

/-- The hand passes a run of slots. -/
theorem sweep_run (before : List α) (hlen : slots.length = n) (hlt : hand < n)
    (h : slots.rotate hand = before ++ rest)
    (hb : ∀ e ∈ before, k.pinned e = true ∨ k.marked e = true) :
    ∃ slots', slots'.length = n ∧
      slots'.rotate ((hand + before.length) % n) = rest ++ before.map k.passed ∧
      (∀ {β : Type} (f : α → β), (∀ e, f (k.unmark e) = f e) → slots'.map f = slots.map f) ∧
      ∀ fuel, k.sweep n (fuel + before.length) slots hand =
        k.sweep n fuel slots' ((hand + before.length) % n) := by
  induction before generalizing slots hand rest with
  | nil =>
    rw [List.length_nil,Nat.add_zero,Nat.mod_eq_of_lt hlt]
    exact ⟨slots,hlen,by simpa using h,fun _ _ => rfl,fun _ => rfl⟩
  | cons x before ih =>
    rw [List.cons_append] at h
    have hhere : slots[hand]? = some x := getElem?_of_rotate (hlen ▸ hlt) h
    have hnext : (slots.set hand (k.passed x)).rotate ((hand + 1) % n) =
        before ++ (rest ++ [k.passed x]) := by
      rw [← hlen,rotate_set (hlen ▸ hlt) h,List.append_assoc]
    obtain ⟨slots',hlen',hrot,hmap,hrun⟩ := ih (by rw [List.length_set]; exact hlen)
      (Nat.mod_lt _ (by omega)) hnext fun e he => hb e (List.mem_cons_of_mem _ he)
    have hpos : ((hand + 1) % n + before.length) % n = (hand + (x :: before).length) % n := by
      rw [Nat.mod_add_mod,List.length_cons]
      congr 1
      omega
    rw [hpos] at hrot hrun
    refine ⟨slots',hlen',?_,?_,?_⟩
    · rw [hrot,List.map_cons,List.append_assoc]
      rfl
    · intro β f hf
      rw [hmap f hf,map_set_passed hf hhere]
    · intro fuel
      rw [← hrun]
      exact sweep_next hhere (hb x List.mem_cons_self) (fuel + before.length)

/-- While all slots are pinned the loop goes on. -/
theorem sweep_pinned (h : ∀ e ∈ slots, k.pinned e = true) (fuel : ℕ) (hand : ℕ) :
    k.sweep n fuel slots hand = none := by
  induction fuel generalizing hand with
  | zero => rfl
  | succ fuel ih =>
    rw [sweep]
    cases hx : slots[hand]? with
    | none => rfl
    | some x =>
      dsimp only
      rw [if_pos (h x (List.mem_of_getElem? hx))]
      exact ih _

theorem chosen_eq_none (h : k.chosen slots = none) : ∀ e ∈ slots, k.pinned e = true := by
  intro e he
  have hnone := (Option.or_eq_none_iff.mp h).2
  simpa using List.findIdx?_eq_none_iff.mp hnone e he

/-- A list is cut at the position that `findIdx?` finds. -/
theorem cut_of_findIdx? {p : α → Bool} (h : l.findIdx? p = some i) :
    ∃ x rest, l = l.take i ++ x :: rest ∧ (l.take i).length = i ∧ p x = true ∧
      ∀ e ∈ l.take i, p e = false := by
  obtain ⟨hlt,hx,hbefore⟩ := List.findIdx?_eq_some_iff_getElem.mp h
  refine ⟨l[i],l.drop (i + 1),?_,?_,hx,?_⟩
  · rw [← List.drop_eq_getElem_cons hlt,List.take_append_drop]
  · rw [List.length_take]
    omega
  · intro e he
    obtain ⟨j,hj,rfl⟩ := List.mem_take_iff_getElem.mp he
    simpa using hbefore j (by omega)

/-- The loop ends at the chosen slot after at most two rounds, and only marks have changed. -/
theorem sweep_chosen (hlen : slots.length = n) (hlt : hand < n)
    (h : k.chosen (slots.rotate hand) = some i) :
    ∃ slots' x, k.sweep n (2 * n) slots hand = some (slots', (hand + i) % n) ∧
      slots'[(hand + i) % n]? = some x ∧ k.pinned x = false ∧
      ∀ {β : Type} (f : α → β), (∀ e, f (k.unmark e) = f e) → slots'.map f = slots.map f := by
  have hpos : ∀ j, (hand + j) % n < n := fun j => Nat.mod_lt _ (by omega)
  unfold chosen at h
  cases hfirst : (slots.rotate hand).findIdx? fun e => !k.pinned e && !k.marked e with
  | some j =>
    obtain rfl : j = i := by simpa [hfirst] using h
    obtain ⟨x,rest,hcut,hj,hx,hbefore⟩ := cut_of_findIdx? hfirst
    obtain ⟨hp,hm⟩ : k.pinned x = false ∧ k.marked x = false := by simpa using hx
    obtain ⟨slots',hlen',hrot,hmap,hrun⟩ := sweep_run _ hlen hlt hcut fun e he => by
      have hno := hbefore e he
      cases hpe : k.pinned e
      · exact .inr (by simpa [hpe] using hno)
      · exact .inl rfl
    rw [hj] at hrot hrun
    have hhere := getElem?_of_rotate (hlen' ▸ hpos j) hrot
    refine ⟨slots',x,?_,hhere,hp,hmap⟩
    have hle : j < n := by
      have hlength := congrArg List.length hcut
      rw [List.length_rotate,List.length_append,hj,List.length_cons] at hlength
      omega
    rw [show 2 * n = 2 * n - j - 1 + 1 + j by omega,hrun,sweep_found hhere hp hm]
  | none =>
    have hsecond : (slots.rotate hand).findIdx? (fun e => !k.pinned e) = some i := by
      simpa [hfirst] using h
    obtain ⟨slots₁,hlen₁,hrot₁,hmap₁,hrun₁⟩ := sweep_run (slots.rotate hand) hlen hlt
      (List.append_nil _).symm fun e he => by
        have hno := List.findIdx?_eq_none_iff.mp hfirst e he
        cases hpe : k.pinned e
        · exact .inr (by simpa [hpe] using hno)
        · exact .inl rfl
    rw [List.length_rotate,hlen,Nat.add_mod_right,Nat.mod_eq_of_lt hlt] at hrot₁ hrun₁
    obtain ⟨x,rest,hcut,hi,hx,hbefore⟩ := cut_of_findIdx? hsecond
    have hp : k.pinned x = false := by simpa using hx
    have hround : slots₁.rotate hand = ((slots.rotate hand).take i).map k.passed ++
        (k.passed x :: rest.map k.passed) := by
      rw [hrot₁,List.nil_append,← List.map_cons,← List.map_append,← hcut]
    obtain ⟨slots₂,hlen₂,hrot₂,hmap₂,hrun₂⟩ := sweep_run _ hlen₁ hlt hround fun e he => by
      obtain ⟨a,ha,rfl⟩ := List.mem_map.mp he
      exact .inl ((pinned_passed a).trans (by simpa using hbefore a ha))
    rw [List.length_map,hi] at hrot₂ hrun₂
    have hhere := getElem?_of_rotate (hlen₂ ▸ hpos i) hrot₂
    refine ⟨slots₂,k.passed x,?_,hhere,(pinned_passed x).trans hp,?_⟩
    · have hle : i < n := by
        have hlength := congrArg List.length hcut
        rw [List.length_rotate,List.length_append,hi,List.length_cons] at hlength
        omega
      rw [show 2 * n = n - i - 1 + 1 + i + n by omega,hrun₁,hrun₂,
        sweep_found hhere ((pinned_passed x).trans hp) (marked_passed hp)]
    · intro β f hf
      rw [hmap₂ f hf,hmap₁ f hf]

end Clock

end DuckOs.ClockSweeps
