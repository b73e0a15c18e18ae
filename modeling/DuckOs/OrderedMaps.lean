import Mathlib

namespace DuckOs.OrderedMaps

variable {k a c : ℕ}

abbrev BTreeMap (α : Type) := Std.ExtTreeMap ℕ α

variable {α : Type}

theorem ite_compare {β : Type} (k a : ℕ) (x y : β) :
    (if compare k a = .eq then x else y) = if a = k then x else y :=
  if_congr (Nat.compare_eq_eq.trans eq_comm) rfl rfl

theorem getElem?_insert (t : BTreeMap α) (k a : ℕ) (v : α) :
    (t.insert k v)[a]? = if a = k then some v else t[a]? := by
  rw [Std.ExtTreeMap.getElem?_insert,ite_compare]

theorem getElem?_erase (t : BTreeMap α) (k a : ℕ) :
    (t.erase k)[a]? = if a = k then none else t[a]? := by
  rw [Std.ExtTreeMap.getElem?_erase,ite_compare]

theorem getElem?_alter (t : BTreeMap α) (k a : ℕ) (g : Option α → Option α) :
    (t.alter k g)[a]? = if a = k then g t[k]? else t[a]? := by
  rw [Std.ExtTreeMap.getElem?_alter,ite_compare]

theorem mem_toList {t : BTreeMap α} {v : α} : (k, v) ∈ t.toList ↔ t[k]? = some v :=
  Std.ExtTreeMap.mem_toList_iff_getElem?_eq_some

theorem all_toList {t : BTreeMap α} {f : ℕ × α → Bool} {v : α} (h : t.toList.all f = true)
    (hk : t[k]? = some v) : f (k, v) = true := List.all_eq_true.mp h _ (mem_toList.mpr hk)

theorem sorted_toList (t : BTreeMap α) : t.toList.Pairwise fun a b => a.1 < b.1 :=
  Std.ExtTreeMap.ordered_keys_toList.imp fun h => Nat.compare_eq_lt.mp h

theorem nodup_toList (t : BTreeMap α) : t.toList.Nodup :=
  (sorted_toList t).imp fun h hc => by rw [hc] at h; exact lt_irrefl _ h

theorem perm_erase {t : BTreeMap α} {v : α} (h : t[k]? = some v) :
    t.toList.Perm ((k, v) :: (t.erase k).toList) := by
  have fresh : (k, v) ∉ (t.erase k).toList := by
    rw [mem_toList,getElem?_erase,if_pos rfl]
    exact fun hc => by cases hc
  refine (List.perm_ext_iff_of_nodup (nodup_toList t)
    (List.nodup_cons.mpr ⟨fresh,nodup_toList _⟩)).mpr ?_
  rintro ⟨a,w⟩
  rw [List.mem_cons,mem_toList,mem_toList,getElem?_erase,Prod.mk.injEq]
  by_cases ha : a = k
  · rw [ha,h,if_pos rfl]
    simp [eq_comm]
  · simp [ha]

theorem erase_of_none {t : BTreeMap α} (h : t[k]? = none) : t.erase k = t := by
  apply Std.ExtTreeMap.ext_getElem?
  intro a
  rw [getElem?_erase]
  split_ifs with ha
  · rw [ha,h]
  · rfl

theorem insert_self {t : BTreeMap α} {v : α} (h : t[k]? = some v) : t.insert k v = t := by
  apply Std.ExtTreeMap.ext_getElem?
  intro a
  rw [getElem?_insert]
  split_ifs with ha
  · rw [ha,h]
  · rfl

theorem insert_insert (t : BTreeMap α) (k : ℕ) (v v' : α) :
    (t.insert k v).insert k v' = t.insert k v' := by
  apply Std.ExtTreeMap.ext_getElem?
  intro a
  rw [getElem?_insert,getElem?_insert,getElem?_insert]
  split
  · rfl
  · rfl

theorem insert_comm (t : BTreeMap α) {l : ℕ} (h : k ≠ l) (v w : α) :
    (t.insert k v).insert l w = (t.insert l w).insert k v := by
  apply Std.ExtTreeMap.ext_getElem?
  intro a
  simp only [getElem?_insert]
  by_cases hk : a = k
  · rw [if_pos hk,if_neg (hk ▸ h),if_pos hk]
  · rw [if_neg hk,if_neg hk]

theorem forall_insert {P : ℕ → α → Prop} {t : BTreeMap α} {key : ℕ} {v : α}
    (h : ∀ (k : ℕ) (x : α), t[k]? = some x → P k x) (hv : P key v) :
    ∀ (k : ℕ) (x : α), (t.insert key v)[k]? = some x → P k x := by
  intro k x hk
  rw [getElem?_insert] at hk
  split_ifs at hk with heq
  · cases hk
    exact heq ▸ hv
  · exact h k x hk

/-- The sum of a weight over all values. -/
def total (f : α → ℕ) (t : BTreeMap α) : ℕ := (t.toList.map fun e => f e.2).sum

/-- The weight of what stands under a key. -/
def weightAt (f : α → ℕ) (t : BTreeMap α) (k : ℕ) : ℕ := t[k]?.elim 0 f

theorem weightAt_some {f : α → ℕ} {t : BTreeMap α} {v : α} (h : t[k]? = some v) :
    weightAt f t k = f v := by
  rw [weightAt,h]
  rfl

theorem weightAt_none {f : α → ℕ} {t : BTreeMap α} (h : t[k]? = none) : weightAt f t k = 0 := by
  rw [weightAt,h]
  rfl

theorem total_empty (f : α → ℕ) : total f (∅ : BTreeMap α) = 0 := by
  rfl

theorem total_erase (f : α → ℕ) (t : BTreeMap α) (k : ℕ) :
    total f t = total f (t.erase k) + weightAt f t k := by
  cases h : t[k]? with
  | none => rw [erase_of_none h,weightAt_none h,Nat.add_zero]
  | some v =>
    rw [total,((perm_erase h).map _).sum_eq,List.map_cons,List.sum_cons,weightAt_some h,
      Nat.add_comm]
    rfl

theorem erase_insert (t : BTreeMap α) (k : ℕ) (v : α) : (t.insert k v).erase k = t.erase k := by
  apply Std.ExtTreeMap.ext_getElem?
  intro a
  rw [getElem?_erase,getElem?_erase,getElem?_insert]
  split
  · rfl
  · rfl

/-- An insertion replaces the weight under its key. -/
theorem total_insert (f : α → ℕ) (t : BTreeMap α) (k : ℕ) (v : α) :
    total f (t.insert k v) + weightAt f t k = total f t + f v := by
  have hv : (t.insert k v)[k]? = some v := by rw [getElem?_insert,if_pos rfl]
  rw [total_erase f (t.insert k v) k,erase_insert,weightAt_some hv,total_erase f t k]
  omega

theorem weightAt_le_total (f : α → ℕ) (t : BTreeMap α) (k : ℕ) : weightAt f t k ≤ total f t := by
  rw [total_erase f t k]
  exact Nat.le_add_left _ _

theorem total_pos_iff {f : α → ℕ} {t : BTreeMap α} :
    0 < total f t ↔ ∃ (k : ℕ) (v : α), t[k]? = some v ∧ 0 < f v := by
  constructor
  · intro h
    by_contra hc
    have zero : ∀ e ∈ t.toList.map (fun e => f e.2), e = 0 := by
      intro w hw
      obtain ⟨⟨k,v⟩,he,rfl⟩ := List.mem_map.mp hw
      exact Nat.eq_zero_of_not_pos fun hp => hc ⟨k,v,mem_toList.mp he,hp⟩
    rw [total,List.sum_eq_zero zero] at h
    exact lt_irrefl _ h
  · rintro ⟨k,v,hk,hv⟩
    have hle := weightAt_le_total f t k
    rw [weightAt_some hk] at hle
    exact lt_of_lt_of_le hv hle

/-- The entries with a key in `[a, b)`. -/
def slice (t : BTreeMap α) (a b : ℕ) : BTreeMap α :=
  t.filter fun k _ => decide (a ≤ k ∧ k < b)

/-- The entries with a key outside `[a, b)`. -/
def carve (t : BTreeMap α) (a b : ℕ) : BTreeMap α :=
  t.filter fun k _ => !decide (a ≤ k ∧ k < b)

theorem getElem?_slice (t : BTreeMap α) (a b k : ℕ) :
    (slice t a b)[k]? = if a ≤ k ∧ k < b then t[k]? else none := by
  rw [slice,Std.ExtTreeMap.getElem?_filter']
  by_cases h : a ≤ k ∧ k < b
  · rw [if_pos h]
    cases t[k]? <;> simp [h]
  · rw [if_neg h]
    cases t[k]? with
    | none => rfl
    | some v => simp only [Option.filter,decide_eq_false h,Bool.false_eq_true,if_false]

theorem getElem?_carve (t : BTreeMap α) (a b k : ℕ) :
    (carve t a b)[k]? = if a ≤ k ∧ k < b then none else t[k]? := by
  rw [carve,Std.ExtTreeMap.getElem?_filter']
  by_cases h : a ≤ k ∧ k < b
  · rw [if_pos h]
    cases t[k]? with
    | none => rfl
    | some v => simp only [Option.filter,decide_eq_true h,Bool.not_true,Bool.false_eq_true,
        if_false]
  · rw [if_neg h]
    cases t[k]? with
    | none => rfl
    | some v => simp only [Option.filter,decide_eq_false h,Bool.not_false,if_true]

theorem carve_self (t : BTreeMap α) (a : ℕ) : carve t a a = t := by
  apply Std.ExtTreeMap.ext_getElem?
  intro k
  rw [getElem?_carve,if_neg (by omega)]

theorem slice_self (t : BTreeMap α) (a : ℕ) : slice t a a = ∅ := by
  apply Std.ExtTreeMap.ext_getElem?
  intro k
  rw [getElem?_slice,if_neg (by omega),Std.ExtTreeMap.getElem?_empty]

theorem erase_carve (t : BTreeMap α) (h : a ≤ c) : (carve t a c).erase c = carve t a (c + 1) := by
  apply Std.ExtTreeMap.ext_getElem?
  intro k
  rw [getElem?_erase,getElem?_carve,getElem?_carve]
  by_cases hk : k = c
  · rw [if_pos hk,if_pos (by omega)]
  · rw [if_neg hk]
    by_cases hr : a ≤ k ∧ k < c
    · rw [if_pos hr,if_pos (by omega)]
    · rw [if_neg hr,if_neg (by omega)]

theorem insert_slice {t : BTreeMap α} (h : a ≤ c) {v : α} (hv : t[c]? = some v) :
    (slice t a c).insert c v = slice t a (c + 1) := by
  apply Std.ExtTreeMap.ext_getElem?
  intro k
  rw [getElem?_insert,getElem?_slice,getElem?_slice]
  by_cases hk : k = c
  · rw [if_pos hk,hk,if_pos (by omega),hv]
  · rw [if_neg hk]
    by_cases hr : a ≤ k ∧ k < c
    · rw [if_pos hr,if_pos (by omega)]
    · rw [if_neg hr,if_neg (by omega)]

theorem perm_slice_carve (t : BTreeMap α) (a b : ℕ) :
    t.toList.Perm ((slice t a b).toList ++ (carve t a b).toList) := by
  refine (List.perm_ext_iff_of_nodup (nodup_toList t) ?_).mpr ?_
  · refine List.nodup_append.mpr ⟨nodup_toList _,nodup_toList _,?_⟩
    rintro ⟨k,v⟩ hk ⟨k',v'⟩ hk' heq
    rw [← heq,mem_toList,getElem?_carve] at hk'
    rw [mem_toList,getElem?_slice] at hk
    split at hk
    · rename_i h
      rw [if_pos h] at hk'
      cases hk'
    · cases hk
  · rintro ⟨k,v⟩
    rw [List.mem_append,mem_toList,mem_toList,mem_toList,getElem?_slice,getElem?_carve]
    by_cases h : a ≤ k ∧ k < b
    · simp [h]
    · simp only [if_neg h]
      simp

theorem total_slice_carve (f : α → ℕ) (t : BTreeMap α) (a b : ℕ) :
    total f t = total f (slice t a b) + total f (carve t a b) := by
  rw [total,((perm_slice_carve t a b).map _).sum_eq,List.map_append,List.sum_append]
  rfl

end DuckOs.OrderedMaps
