import Mathlib

namespace DuckOs.ChunkedArrays

variable {α : Type} {k : ℕ}

section Overwriting

/-- `l` with the elements from position `p` on replaced by those of `b`. -/
def overwrite (l : List α) (p : ℕ) (b : List α) : List α :=
  l.take p ++ b ++ l.drop (p + b.length)

variable {l b c : List α} {p : ℕ}

@[simp] theorem overwrite_nil (l : List α) (p : ℕ) : overwrite l p [] = l := by
  simp [overwrite]

theorem length_overwrite (h : p + b.length ≤ l.length) : (overwrite l p b).length = l.length := by
  simp [overwrite]
  omega

theorem getElem?_overwrite (h : p + b.length ≤ l.length) (i : ℕ) :
    (overwrite l p b)[i]? = if p ≤ i ∧ i < p + b.length then b[i - p]? else l[i]? := by
  have hp : min p l.length = p := by omega
  unfold overwrite
  by_cases h1 : i < p
  · rw [List.append_assoc,List.getElem?_append_left (by simp; omega),List.getElem?_take_of_lt h1,
      if_neg (by omega)]
  · by_cases h2 : i < p + b.length
    · rw [List.getElem?_append_left (by simp; omega),List.getElem?_append_right (by simp; omega),
        if_pos (by omega),List.length_take,hp]
    · rw [List.getElem?_append_right (by simp; omega),if_neg (by omega),List.getElem?_drop]
      congr 1
      simp
      omega

/-- Two writes one after the other. -/
theorem overwrite_append (h : p + (b ++ c).length ≤ l.length) :
    overwrite (overwrite l p b) (p + b.length) c = overwrite l p (b ++ c) := by
  rw [List.length_append] at h
  have hb : p + b.length ≤ l.length := by omega
  have hlen := length_overwrite hb
  apply List.ext_getElem?
  intro i
  rw [getElem?_overwrite (by omega),getElem?_overwrite hb,
    getElem?_overwrite (by rw [List.length_append]; omega),List.length_append]
  by_cases h1 : i < p + b.length
  · rw [if_neg (by omega)]
    by_cases h2 : p ≤ i
    · rw [if_pos (by omega),if_pos (by omega),List.getElem?_append_left (by omega)]
    · rw [if_neg (by omega),if_neg (by omega)]
  · by_cases h2 : i < p + b.length + c.length
    · rw [if_pos (by omega),if_pos (by omega),List.getElem?_append_right (by omega)]
      congr 1
      omega
    · rw [if_neg (by omega),if_neg (by omega),if_neg (by omega)]

/-- What was written is read back. -/
theorem slice_overwrite (h : p + b.length ≤ l.length) :
    ((overwrite l p b).drop p).take b.length = b := by
  have hp : (l.take p).length = p := by simp; omega
  unfold overwrite
  rw [List.append_assoc,List.drop_append_of_le_length (by omega),List.drop_eq_nil_of_le (by omega),
    List.nil_append,List.take_left']
  rfl

/-- Reading a piece, writing inside it and writing it back is a write inside the whole. -/
theorem overwrite_slice {a o m : ℕ} (ha : a + m ≤ l.length) (ho : o + b.length ≤ m) :
    overwrite l a (overwrite ((l.drop a).take m) o b) = overwrite l (a + o) b := by
  have hm : ((l.drop a).take m).length = m := by simp; omega
  have hin : (overwrite ((l.drop a).take m) o b).length = m := by
    rw [length_overwrite (by omega),hm]
  apply List.ext_getElem?
  intro i
  rw [getElem?_overwrite (by omega),getElem?_overwrite (by omega),hin,
    getElem?_overwrite (by omega)]
  by_cases h1 : a ≤ i ∧ i < a + m
  · rw [if_pos h1]
    by_cases h2 : o ≤ i - a ∧ i - a < o + b.length
    · rw [if_pos h2,if_pos (by omega)]
      congr 1
      omega
    · rw [if_neg h2,if_neg (by omega),List.getElem?_take_of_lt (by omega),List.getElem?_drop]
      congr 1
      omega
  · rw [if_neg h1,if_neg (by omega)]

end Overwriting

section Chunks

/-- A list of `k` elements. -/
abbrev Chunk (α : Type) (k : ℕ) := { l : List α // l.length = k }

def flat (cs : List (Chunk α k)) : List α := (cs.map Subtype.val).flatten

variable {cs : List (Chunk α k)} {i : ℕ} {x : Chunk α k}

@[simp] theorem flat_nil : flat ([] : List (Chunk α k)) = [] := rfl

@[simp] theorem flat_cons (x : Chunk α k) (cs : List (Chunk α k)) :
    flat (x :: cs) = x.val ++ flat cs := rfl

@[simp] theorem length_flat (cs : List (Chunk α k)) : (flat cs).length = cs.length * k := by
  induction cs with
  | nil => simp
  | cons x cs ih =>
    rw [flat_cons,List.length_append,x.property,ih,List.length_cons,Nat.succ_mul,Nat.add_comm]

/-- The chunk with number `i` is a slice of the array. -/
theorem slice_flat (h : cs[i]? = some x) : ((flat cs).drop (i * k)).take k = x.val := by
  induction cs generalizing i with
  | nil => simp at h
  | cons y cs ih =>
    cases i with
    | zero =>
      obtain rfl : y = x := by simpa using h
      rw [Nat.zero_mul,List.drop_zero,flat_cons,List.take_left' y.property]
    | succ i =>
      rw [flat_cons,List.drop_append,List.drop_eq_nil_of_le
        (by rw [y.property,Nat.succ_mul]; omega),
        List.nil_append,y.property,Nat.succ_mul,Nat.add_sub_cancel]
      exact ih (by simpa using h)

/-- A slice that stays inside one chunk. -/
theorem slice_flat_inside (h : cs[i]? = some x) {o m : ℕ} (hm : o + m ≤ k) :
    ((flat cs).drop (i * k + o)).take m = (x.val.drop o).take m := by
  rw [← slice_flat h,List.drop_take,List.take_take,List.drop_drop,min_eq_left (by omega)]

/-- Replacing a chunk. -/
theorem flat_set (h : i < cs.length) (x : Chunk α k) :
    flat (cs.set i x) = overwrite (flat cs) (i * k) x.val := by
  induction cs generalizing i with
  | nil => simp at h
  | cons y cs ih =>
    cases i with
    | zero =>
      simp only [List.set_cons_zero,flat_cons,overwrite,Nat.zero_mul,List.take_zero,
        List.nil_append,Nat.zero_add,x.property]
      rw [List.drop_left' y.property]
    | succ i =>
      have hlen : i < cs.length := by simpa using h
      have hy : (i + 1) * k = y.val.length + i * k := by rw [y.property,Nat.succ_mul,Nat.add_comm]
      simp only [List.set_cons_succ,flat_cons,ih hlen,overwrite,hy,List.append_assoc]
      rw [List.take_length_add_append,Nat.add_assoc,List.drop_length_add_append,List.append_assoc]

/-- Replacing a part of a chunk. -/
theorem flat_set_inside (h : cs[i]? = some x) {o : ℕ} {b : List α} (hb : o + b.length ≤ k)
    (y : Chunk α k) (hy : y.val = overwrite x.val o b) :
    flat (cs.set i y) = overwrite (flat cs) (i * k + o) b := by
  obtain ⟨hi,_⟩ := List.getElem?_eq_some_iff.mp h
  have hin : i * k + k ≤ cs.length * k := by
    calc i * k + k = (i + 1) * k := (Nat.succ_mul i k).symm
      _ ≤ cs.length * k := Nat.mul_le_mul_right k hi
  rw [flat_set hi,hy,← slice_flat h,overwrite_slice (by rw [length_flat]; exact hin) hb]

end Chunks

end DuckOs.ChunkedArrays
