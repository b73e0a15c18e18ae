import DuckOs.SyscallSteps

namespace DuckOs.UnmapRounds
open ExecutionRules AddressModel PermissionFlags KernelMachine VirtMemoryModel
open MemorySetModel MemorySyscalls BootMachine SegmentViews SegmentUnmap
open SegmentProtect SpaceOperations SyscallSteps PageTableSharing
open OrderedMaps

variable {areas : VmaRange} {first last i k key a b : ℕ} {vma right : VirtMemoryAddr} {w : View}

def KeysBelow (areas : VmaRange) : Prop :=
  ∀ (k : ℕ) (vma : VirtMemoryAddr), areas[k]? = some vma → k ≤ vma.startVaddr

theorem mem_overlapKeys : i ∈ overlapKeys areas first last ↔
      ∃ vma, areas[i]? = some vma ∧ Overlaps vma first last := by
  unfold overlapKeys
  simp only [List.mem_map,List.mem_filter,decide_eq_true_eq]
  constructor
  · rintro ⟨⟨k,vma⟩,⟨hmem,ho⟩,rfl⟩
    exact ⟨vma,mem_toList.mp hmem,ho⟩
  · rintro ⟨vma,hk,ho⟩
    exact ⟨(i, vma),⟨mem_toList.mpr hk,ho⟩,rfl⟩

theorem overlapKeys_nodup (areas : VmaRange) (first last : ℕ) :
    (overlapKeys areas first last).Nodup := by
  have hsorted := (sorted_toList areas).filter fun e => decide (Overlaps e.2 first last)
  refine List.Pairwise.map _ (fun _ _ h => ?_) hsorted
  exact ne_of_lt h

theorem overlaps_pages (h : Overlaps vma first last) :
    Overlaps vma (pageDown first) (pageUp last) := by
  rw [overlaps_iff] at h ⊢
  unfold pageDown pageUp
  omega

theorem cutVma_start : vma.startVaddr ≤ (cutVma vma a b).1.startVaddr := by
  unfold cutVma
  split_ifs with ho ha hb hb
  · exact (overlaps_iff.mp ho).1.le
  · unfold emptied
    split
    · exact le_rfl
    · exact le_rfl
  · exact le_rfl
  · exact le_rfl
  · exact le_rfl

theorem cutVma_split (h : (cutVma vma a b).2 = some right) :
    Overlaps vma a b ∧ vma.startVaddr < a ∧ b < vma.endVaddr ∧ right = rightPart vma b := by
  unfold cutVma at h
  split_ifs at h with ho ha hb hb
  cases h
  exact ⟨ho,not_le.mp ha,hb,rfl⟩

def tornOff (w : View) (a b i : ℕ) : Option VirtMemoryAddr :=
  w.areas[i]?.bind fun vma => (cutVma vma a b).2

theorem cutAt_getElem? (w : View) (i : ℕ) (hk : k ≠ b) : (cutAt a b w i).areas[k]? =
      if k = i then w.areas[k]?.map fun vma => (cutVma vma a b).1 else w.areas[k]? := by
  cases hi : w.areas[i]? with
  | none =>
    rw [cutAt_none hi]
    split_ifs with heq
    · rw [heq,hi]
      rfl
    · rfl
  | some vma =>
    unfold cutAt
    simp only [hi]
    cases hc : (cutVma vma a b).2 with
    | none =>
      rw [getElem?_insert]
      split_ifs with heq
      · rw [heq,hi]
        rfl
      · rfl
    | some right =>
      obtain ⟨-,-,-,rfl⟩ := cutVma_split hc
      dsimp only [rightPart]
      rw [getElem?_insert,if_neg hk,getElem?_insert]
      split_ifs with heq
      · rw [heq,hi]
        rfl
      · rfl

theorem cutAt_getElem?_split (w : View) (hi : i ≠ b) :
    (cutAt a b w i).areas[b]? = (tornOff w a b i).or w.areas[b]? := by
  unfold tornOff
  cases hw : w.areas[i]? with
  | none =>
    rw [cutAt_none hw]
    rfl
  | some vma =>
    unfold cutAt
    simp only [hw,Option.bind_some]
    cases hc : (cutVma vma a b).2 with
    | none =>
      rw [getElem?_insert,if_neg hi.symm]
      rfl
    | some right =>
      obtain ⟨-,-,-,rfl⟩ := cutVma_split hc
      dsimp only [rightPart]
      rw [getElem?_insert,if_pos rfl]
      rfl

theorem cutAt_other (w : View) (hk : k ≠ b) (hki : k ≠ i) :
    (cutAt a b w i).areas[k]? = w.areas[k]? := by
  rw [cutAt_getElem? w i hk,if_neg hki]

theorem rounds_getElem? (hk : k ≠ b) : ∀ (keys : List ℕ) (w : View), keys.Nodup →
    (keys.foldl (cutAt a b) w).areas[k]? =
      if k ∈ keys then w.areas[k]?.map fun vma => (cutVma vma a b).1 else w.areas[k]? := by
  intro keys
  induction keys with
  | nil =>
    intro w _
    rfl
  | cons i keys ih =>
    intro w hnodup
    obtain ⟨hi,hkeys⟩ := List.nodup_cons.mp hnodup
    rw [List.foldl_cons,ih _ hkeys]
    by_cases hki : k = i
    · subst hki
      rw [if_neg hi,if_pos List.mem_cons_self,cutAt_getElem? w k hk,if_pos rfl]
    · rw [cutAt_other w hk hki]
      simp only [List.mem_cons,hki,false_or]

theorem rounds_getElem?_split : ∀ (keys : List ℕ) (w : View), keys.Nodup → (∀ i ∈ keys, i ≠ b) →
    (keys.foldl (cutAt a b) w).areas[b]? =
      keys.foldl (fun under i => (tornOff w a b i).or under) w.areas[b]? := by
  intro keys
  induction keys with
  | nil =>
    intro w _ _
    rfl
  | cons i keys ih =>
    intro w hnodup hb
    obtain ⟨hi,hkeys⟩ := List.nodup_cons.mp hnodup
    have hib := hb i List.mem_cons_self
    rw [List.foldl_cons,ih _ hkeys fun j hj => hb j (List.mem_cons_of_mem _ hj),
      List.foldl_cons,cutAt_getElem?_split w hib]
    refine List.foldl_ext _ _ _ fun under j hj => ?_
    unfold tornOff
    rw [cutAt_other w (hb j (List.mem_cons_of_mem _ hj)) (ne_of_mem_of_not_mem hj hi)]

theorem rounds_pte (v : ℕ) : ∀ (keys : List ℕ) (w : View), keys.Nodup → (∀ i ∈ keys, i ≠ b) →
    ((∃ i ∈ keys, ∃ vma, w.areas[i]? = some vma ∧ Cleared vma a b v) ∧
        (keys.foldl (cutAt a b) w).pte v = none) ∨
      ((∀ i ∈ keys, ∀ vma, w.areas[i]? = some vma → ¬ Cleared vma a b v) ∧
        (keys.foldl (cutAt a b) w).pte v = w.pte v) := by
  intro keys
  induction keys with
  | nil =>
    intro w _ _
    exact .inr ⟨fun i hi => (by cases hi),rfl⟩
  | cons i keys ih =>
    intro w hnodup hb
    obtain ⟨hi,hkeys⟩ := List.nodup_cons.mp hnodup
    have hb' := fun j hj => hb j (List.mem_cons_of_mem i hj)
    have hother : ∀ j ∈ keys, (cutAt a b w i).areas[j]? = w.areas[j]? :=
      fun j hj => cutAt_other w (hb' j hj) (ne_of_mem_of_not_mem hj hi)
    rw [List.foldl_cons]
    rcases ih (cutAt a b w i) hkeys hb' with ⟨⟨j,hj,vma,hvma,hclear⟩,hpte⟩ | ⟨hnone,hpte⟩
    · rw [hother j hj] at hvma
      exact .inl ⟨⟨j,List.mem_cons_of_mem _ hj,vma,hvma,hclear⟩,hpte⟩
    · rw [hpte]
      have hnone' : ∀ j ∈ keys, ∀ vma, w.areas[j]? = some vma → ¬ Cleared vma a b v := by
        intro j hj vma hvma
        exact hnone j hj vma (hother j hj ▸ hvma)
      cases hw : w.areas[i]? with
      | none =>
        rw [cutAt_none hw]
        refine .inr ⟨fun j hj vma hvma => ?_,rfl⟩
        rcases List.mem_cons.mp hj with rfl | hj
        · rw [hw] at hvma
          cases hvma
        · exact hnone' j hj vma hvma
      | some vma =>
        rw [cutAt_pte hw]
        by_cases hclear : Cleared vma a b v
        · rw [if_pos hclear]
          exact .inl ⟨⟨i,List.mem_cons_self,vma,hw,hclear⟩,rfl⟩
        · rw [if_neg hclear]
          refine .inr ⟨fun j hj vma' hvma => ?_,rfl⟩
          rcases List.mem_cons.mp hj with rfl | hj
          · rw [hw] at hvma
            cases hvma
            exact hclear
          · exact hnone' j hj vma' hvma

theorem roundsReady_iff : ∀ (keys : List ℕ) (w : View), keys.Nodup →
    (∀ i ∈ keys, i ≠ pageUp last) →
    (RoundsReady first last w keys ↔ ∀ i ∈ keys, RoundReady first last w i) := by
  intro keys
  induction keys with
  | nil =>
    intro w _ _
    exact ⟨fun _ i hi => (by cases hi),fun _ => trivial⟩
  | cons i keys ih =>
    intro w hnodup hb
    obtain ⟨hi,hkeys⟩ := List.nodup_cons.mp hnodup
    have hb' := fun j hj => hb j (List.mem_cons_of_mem i hj)
    have hother : ∀ j ∈ keys,
        (RoundReady first last (cutAt (pageDown first) (pageUp last) w i) j ↔
          RoundReady first last w j) := by
      intro j hj
      unfold RoundReady
      rw [cutAt_other w (hb' j hj) (ne_of_mem_of_not_mem hj hi)]
    rw [RoundsReady,ih _ hkeys hb',List.forall_mem_cons]
    exact and_congr_right fun _ => forall₂_congr hother

section Latest

variable {α : Type} {f : ℕ → Option α}

theorem foldl_or_none : ∀ (l : List ℕ) (under : Option α), (∀ i ∈ l, f i = none) →
    l.foldl (fun under i => (f i).or under) under = under := by
  intro l
  induction l with
  | nil => exact fun under _ => rfl
  | cons i l ih =>
    intro under h
    rw [List.foldl_cons,h i List.mem_cons_self]
    exact ih under fun j hj => h j (List.mem_cons_of_mem _ hj)

theorem foldl_or_mem {x : α} : ∀ (l : List ℕ) (under : Option α),
    l.foldl (fun under i => (f i).or under) under = some x →
      under = some x ∨ ∃ i ∈ l, f i = some x := by
  intro l
  induction l with
  | nil => exact fun under h => .inl h
  | cons i l ih =>
    intro under h
    rcases ih _ h with hi | ⟨j,hj,hx⟩
    · dsimp only at hi
      cases hf : f i with
      | none =>
        rw [hf] at hi
        exact .inl hi
      | some y =>
        rw [hf] at hi
        exact .inr ⟨i,List.mem_cons_self,hf.trans hi⟩
    · exact .inr ⟨j,List.mem_cons_of_mem _ hj,hx⟩

theorem foldl_or_stays {x : α} : ∀ l : List ℕ, (∀ i ∈ l, f i = some x ∨ f i = none) →
    l.foldl (fun under i => (f i).or under) (some x) = some x := by
  intro l
  induction l with
  | nil => exact fun _ => rfl
  | cons i l ih =>
    intro h
    have hstep : (f i).or (some x) = some x := by
      rcases h i List.mem_cons_self with hi | hi
      · rw [hi]
        rfl
      · rw [hi]
        rfl
    rw [List.foldl_cons,hstep]
    exact ih fun j hj => h j (List.mem_cons_of_mem _ hj)

theorem foldl_or_some {x : α} : ∀ {l : List ℕ} (under : Option α), key ∈ l →
    f key = some x → (∀ i ∈ l, f i = some x ∨ f i = none) →
      l.foldl (fun under i => (f i).or under) under = some x := by
  intro l
  induction l with
  | nil => exact fun under h => (by cases h)
  | cons i l ih =>
    intro under hkey hx honly
    have honly' := fun j hj => honly j (List.mem_cons_of_mem i hj)
    rw [List.foldl_cons]
    rcases List.mem_cons.mp hkey with rfl | hl
    · rw [hx]
      exact foldl_or_stays l honly'
    · exact ih _ hl hx honly'

end Latest

theorem overlapKeys_lt (h : KeysBelow w.areas) :
    ∀ i ∈ overlapKeys w.areas first last, i ≠ pageUp last := by
  intro i hi
  obtain ⟨vma,hvma,ho⟩ := mem_overlapKeys.mp hi
  have hkey := h i vma hvma
  rw [overlaps_iff] at ho
  unfold pageUp
  omega

theorem unmap_getElem? (w : View) (hne : first ≠ last) (hk : k ≠ pageUp last) :
    (w.unmap first last).areas[k]? = w.areas[k]?.map fun vma =>
      if Overlaps vma first last then (cutVma vma (pageDown first) (pageUp last)).1 else vma := by
  unfold View.unmap
  rw [if_neg hne,rounds_getElem? hk _ _ (overlapKeys_nodup _ _ _)]
  cases hw : w.areas[k]? with
  | none =>
    split
    · rfl
    · rfl
  | some vma =>
    simp only [mem_overlapKeys,hw,Option.some.injEq,exists_eq_left',Option.map_some]
    split
    · rfl
    · rfl

theorem tornOff_eq_some (h : tornOff w a b i = some right) :
    ∃ vma, w.areas[i]? = some vma ∧ (cutVma vma a b).2 = some right := by
  exact Option.bind_eq_some_iff.mp h

section

variable (keys : KeysBelow w.areas) (hne : first ≠ last)
include keys hne

theorem unmap_limit {vma' : VirtMemoryAddr}
    (h : (w.unmap first last).areas[pageUp last]? = some vma') :
    w.areas[pageUp last]? = some vma' ∨ ∃ (i : ℕ) (vma : VirtMemoryAddr),
      w.areas[i]? = some vma ∧ (cutVma vma (pageDown first) (pageUp last)).2 = some vma' := by
  unfold View.unmap at h
  rw [if_neg hne,rounds_getElem?_split _ _ (overlapKeys_nodup _ _ _) (overlapKeys_lt keys)] at h
  rcases foldl_or_mem _ _ h with hold | ⟨i,-,hi⟩
  · exact .inl hold
  · obtain ⟨vma,hvma,hcut⟩ := tornOff_eq_some hi
    exact .inr ⟨i,vma,hvma,hcut⟩

theorem unmap_limit_kept
    (h : ∀ (k : ℕ) (vma : VirtMemoryAddr), w.areas[k]? = some vma → Overlaps vma first last →
      (cutVma vma (pageDown first) (pageUp last)).2 = none) :
    (w.unmap first last).areas[pageUp last]? = w.areas[pageUp last]? := by
  unfold View.unmap
  rw [if_neg hne,rounds_getElem?_split _ _ (overlapKeys_nodup _ _ _) (overlapKeys_lt keys)]
  refine foldl_or_none _ _ fun i hi => ?_
  obtain ⟨vma,hvma,ho⟩ := mem_overlapKeys.mp hi
  unfold tornOff
  rw [hvma]
  exact h i vma hvma ho

theorem unmap_limit_split (hkey : w.areas[key]? = some vma) (ho : Overlaps vma first last)
    (hcut : (cutVma vma (pageDown first) (pageUp last)).2 = some right)
    (only : ∀ (k : ℕ) (vma' : VirtMemoryAddr), w.areas[k]? = some vma' →
      Overlaps vma' first last → k = key ∨ (cutVma vma' (pageDown first) (pageUp last)).2 = none) :
    (w.unmap first last).areas[pageUp last]? = some right := by
  unfold View.unmap
  rw [if_neg hne,rounds_getElem?_split _ _ (overlapKeys_nodup _ _ _) (overlapKeys_lt keys)]
  have hsplit : tornOff w (pageDown first) (pageUp last) key = some right := by
    unfold tornOff
    rw [hkey]
    exact hcut
  refine foldl_or_some _ (mem_overlapKeys.mpr ⟨vma,hkey,ho⟩) hsplit fun i hi => ?_
  obtain ⟨vma',hvma',ho'⟩ := mem_overlapKeys.mp hi
  rcases only i vma' hvma' ho' with rfl | hnone
  · exact .inl hsplit
  · refine .inr ?_
    unfold tornOff
    rw [hvma']
    exact hnone

theorem unmap_pte (v : ℕ) :
    ((∃ (k : ℕ) (vma : VirtMemoryAddr), w.areas[k]? = some vma ∧ Overlaps vma first last ∧
        Cleared vma (pageDown first) (pageUp last) v) ∧ (w.unmap first last).pte v = none) ∨
      ((∀ (k : ℕ) (vma : VirtMemoryAddr), w.areas[k]? = some vma → Overlaps vma first last →
        ¬ Cleared vma (pageDown first) (pageUp last) v) ∧
        (w.unmap first last).pte v = w.pte v) := by
  unfold View.unmap
  rw [if_neg hne]
  rcases rounds_pte v _ w (overlapKeys_nodup _ _ _) (overlapKeys_lt keys) with
    ⟨⟨i,hi,vma,hvma,hclear⟩,hpte⟩ | ⟨hnone,hpte⟩
  · obtain ⟨vma',hvma',ho⟩ := mem_overlapKeys.mp hi
    rw [hvma] at hvma'
    cases hvma'
    exact .inl ⟨⟨i,vma,hvma,ho,hclear⟩,hpte⟩
  · exact .inr ⟨fun k vma hvma ho => hnone k (mem_overlapKeys.mpr ⟨vma,hvma,ho⟩) vma hvma,hpte⟩

end

theorem unmapReady_iff (h : KeysBelow w.areas) :
    w.UnmapReady first last ↔ first = last ∨ w.areas.toList = [] ∨
      (first ≤ last ∧ ∀ (k : ℕ) (vma : VirtMemoryAddr), w.areas[k]? = some vma →
        Overlaps vma first last → checkUserVa first = true ∧ checkUserVa last = true ∧
          CutReady vma (pageDown first) (pageUp last)) := by
  unfold View.UnmapReady
  rw [roundsReady_iff _ _ (overlapKeys_nodup _ _ _) (overlapKeys_lt h)]
  refine or_congr_right (or_congr_right (and_congr_right fun _ => ?_))
  constructor
  · intro hr k vma hk ho
    exact hr k (mem_overlapKeys.mpr ⟨vma,hk,ho⟩) vma hk
  · intro hr i hi vma hk
    obtain ⟨vma',hk',ho⟩ := mem_overlapKeys.mp hi
    rw [hk] at hk'
    cases hk'
    exact hr i vma hk ho

theorem protectVma_start (vma : VirtMemoryAddr) (a b : ℕ) (flags : MapPermission) :
    (protectVma vma a b flags).1.startVaddr = vma.startVaddr := by
  unfold protectVma
  split_ifs <;> rfl

theorem protectAt_keys (h : KeysBelow w.areas) (a b : ℕ) (flags : MapPermission) (i : ℕ) :
    KeysBelow (protectAt a b flags w i).areas := by
  refine protectAt_forall flags h fun vma hi => ⟨?_,fun _ _ => le_rfl⟩
  rw [protectVma_start]
  exact h i vma hi

theorem protect_keys (h : KeysBelow w.areas) (first last : ℕ) (flags : MapPermission) :
    KeysBelow (View.protect w first last flags).areas := by
  unfold View.protect
  generalize overlapKeys w.areas first last = keys
  induction keys generalizing w with
  | nil => exact h
  | cons i keys ih => exact ih (protectAt_keys h first last flags i)

theorem unmap_keys (h : KeysBelow w.areas) (ready : w.UnmapReady first last) :
    KeysBelow (w.unmap first last).areas := by
  refine unmap_induct (P := fun w' => KeysBelow w'.areas) h ready ?_
  intro w' i _ _ h' _
  refine cutAt_forall h' fun vma hi => ⟨(h' i vma hi).trans cutVma_start,fun right _ => le_rfl⟩

theorem findVm_some {vaddr : ℕ} (h : findVm areas vaddr = some (key, vma)) :
    areas[key]? = some vma ∧ vma.startVaddr ≤ vaddr ∧ vaddr ≤ vma.endVaddr := by
  refine ⟨mem_toList.mp (List.mem_of_find?_eq_some h),?_⟩
  have hin := List.find?_some h
  simpa [VirtMemoryAddr.isContain] using hin

theorem effect_keys {op : SpaceOp} {w' : View} (h : KeysBelow w.areas) (effect : Effect op w w') :
    KeysBelow w'.areas := by
  cases op with
  | push first last permission mapType vmaType handler data offset =>
    obtain ⟨-,-,pages,-,-,rfl⟩ := effect
    exact forall_insert h le_rfl
  | mmapAnywhere hint len permission mapType handler file =>
    rcases effect with ⟨-,rfl⟩ | ⟨a,-,-,-,rfl⟩
    · exact h
    · exact forall_insert h le_rfl
  | mmapFixed first last permission mapType handler file =>
    obtain ⟨ready,-,-,rfl⟩ := effect
    exact forall_insert (unmap_keys h ready) le_rfl
  | munmap first last =>
    obtain ⟨ready,rfl⟩ := effect
    exact unmap_keys h ready
  | mprotect first last flags =>
    obtain ⟨-,rfl⟩ := effect
    exact protect_keys h first last flags
  | expand first last =>
    rcases effect with rfl | ⟨key,vma,found,-,-,rfl⟩
    · exact h
    · exact forall_insert h (h key vma found)
  | fault vaddr =>
    rcases effect with rfl | ⟨key,vma,page,found,-,-,flags,rfl⟩
    · exact h
    · exact forall_insert h (h key vma (findVm_some found).1)

theorem runs_keys {root : ℕ} {K : ℕ → Prop} {C : Call → Process → Machine → Prop}
    {p₀ p : Process} {m₀ m : Machine} (own : Owned root K p₀.vm m₀) (h : KeysBelow p₀.vm.areas)
    (run : Runs Call.exec C p₀ m₀ p m) : KeysBelow p.vm.areas := by
  refine (Runs.invariant (fun q n => Owned root K q.vm n ∧ KeysBelow q.vm.areas) ?_ run
    ⟨own,h⟩).2
  rintro call q n ⟨own',h'⟩ -
  refine (call_effect own' call).imp ?_
  rintro q' n' ⟨hret,hsame | ⟨op,-,effect⟩⟩
  · refine ⟨hret.owned,?_⟩
    have hareas : q'.vm.areas = q.vm.areas := congrArg View.areas hsame
    rwa [hareas]
  · exact ⟨hret.owned,effect_keys (w := msView q.vm n root) h' effect⟩

def fromBoot (n : ℕ) (calls : List Call) (test : Process → Machine → Bool) : Bool :=
  returnsWith MemorySet.newUser (bootMachine n) fun ms m₁ =>
    returnsWith (calls.foldlM (fun p call => call.exec p) ⟨ms, ∅⟩) m₁ test

theorem fromBoot_elim {n : ℕ} (hn : n ≤ 0x7c00 ∧ 5 ≤ n) {calls : List Call}
    {test : Process → Machine → Bool} (h : fromBoot n calls test = true) :
    ∃ root K ms m₁ p m, MemorySet.newUser (bootMachine n) = .ok ms m₁ ∧
      Runs Call.exec (fun _ _ _ => True) ⟨ms, ∅⟩ m₁ p m ∧ Owned root K p.vm m ∧
      KeysBelow p.vm.areas ∧ p.vm.pt.rootPaddr / 4096 = root ∧ test p m = true := by
  obtain ⟨ms,m₁,created,h⟩ := returnsWith_elim h
  obtain ⟨p,m,hrun,htest⟩ := returnsWith_elim h
  have run : Runs Call.exec (fun _ _ _ => True) ⟨ms,∅⟩ m₁ p m :=
    Runs.of_foldlM calls (fun _ _ _ _ => trivial) .refl hrun
  obtain ⟨kernel,kroot,booted⟩ := bootMachine_booted hn.1 hn.2
  obtain ⟨root,hempty,-,own,-⟩ := (newUser_owned booted).of_ok created
  have own₁ : Owned root (TableFrame (bootMachine n) kroot) (⟨ms,∅⟩ : Process).vm m₁ := own
  have own' := runs_owned own₁ run
  have keys : KeysBelow ms.areas := by
    rw [hempty]
    exact nofun
  obtain ⟨ext,s⟩ := own'.space
  refine ⟨root,_,ms,m₁,p,m,created,run,own',runs_keys own₁ keys run,?_,htest⟩
  rw [s.rootPaddr]
  omega

end DuckOs.UnmapRounds
