import Mathlib

/-! Queues in a ring of cells. The elements stand in the cells from the head on;
what the other cells hold does not matter. -/
namespace DuckOs.RingQueues
open Function

variable {α : Type} {n : ℕ} [NeZero n]

/-- The cell that is `i` behind `head`. -/
def cell (head : Fin n) (i : ℕ) : Fin n := head + Fin.ofNat n i

def contents (cells : Fin n → α) (head : Fin n) (count : ℕ) : List α :=
  (List.range count).map fun i => cells (cell head i)

theorem val_cell (head : Fin n) (i : ℕ) : (cell head i).val = (head.val + i) % n := by
  simp [cell,Fin.val_add]

@[simp] theorem cell_zero (head : Fin n) : cell head 0 = head := by
  apply Fin.ext
  rw [val_cell,Nat.add_zero,Nat.mod_eq_of_lt head.isLt]

theorem cell_succ (head : Fin n) (i : ℕ) : cell head i + 1 = cell head (i + 1) := by
  apply Fin.ext
  rw [Fin.val_add,val_cell,val_cell]
  simp [Nat.add_assoc]

theorem cell_step (head : Fin n) (i : ℕ) : cell (head + 1) i = cell head (i + 1) := by
  apply Fin.ext
  rw [val_cell,val_cell,Fin.val_add]
  simp [Nat.add_assoc,Nat.add_comm 1 i]

theorem cell_ne {head : Fin n} {i j : ℕ} (hij : i < j) (hj : j < n) :
    cell head i ≠ cell head j := by
  intro h
  have hval := congrArg Fin.val h
  rw [val_cell,val_cell] at hval
  have hdvd : n ∣ (head.val + j) - (head.val + i) :=
    (Nat.modEq_iff_dvd' (by omega)).mp hval
  have hle := Nat.le_of_dvd (by omega) hdvd
  omega

theorem cell_eq_head_iff {head : Fin n} {i : ℕ} (hi : i ≤ n) :
    cell head i = head ↔ i = 0 ∨ i = n := by
  constructor
  · intro h
    by_contra hne
    rw [not_or] at hne
    exact cell_ne (Nat.pos_of_ne_zero hne.1) (lt_of_le_of_ne hi hne.2)
      ((cell_zero head).trans h.symm)
  · rintro (rfl | rfl)
    · exact cell_zero head
    · apply Fin.ext
      rw [val_cell,Nat.add_mod_right,Nat.mod_eq_of_lt head.isLt]

theorem contents_pop (cells : Fin n → α) (head : Fin n) (count : ℕ) :
    contents cells head (count + 1) = cells head :: contents cells (head + 1) count := by
  simp [contents,List.range_succ_eq_map,cell_step,comp_def]

theorem contents_push (cells : Fin n → α) (head : Fin n) {count : ℕ} (h : count < n) (x : α) :
    contents (update cells (cell head count) x) head (count + 1) =
      contents cells head count ++ [x] := by
  have hsame : ∀ i ∈ List.range count,
      update cells (cell head count) x (cell head i) = cells (cell head i) := by
    intro i hi
    rw [update_of_ne (cell_ne (List.mem_range.mp hi) h)]
  simp [contents,List.range_succ,List.map_congr_left hsame]

end DuckOs.RingQueues
