import DuckOs.UnmapRounds

namespace DuckOs.MmapFailure
open ExecutionRules AddressModel KernelMachine PageTableTree
open BootMachine PageModel VirtMemoryModel MemorySetModel MemorySyscalls
open FrameOwnership SegmentViews SegmentUnmap SpaceOperations SyscallSteps UnmapRounds
open OrderedMaps

variable {pages : BTreeMap Page} {x y a b v first last : ℕ} {vma : VirtMemoryAddr} {w' : View}
  {e : Errno}

def pageCount (pages : BTreeMap Page) : ℕ := total (fun _ => 1) pages

def weight (vma : VirtMemoryAddr) : ℕ :=
  (vma.endVaddr - vma.startVaddr) + pageCount vma.pma.pageManager

theorem pageCount_parts (pages : BTreeMap Page) (a b : ℕ) :
    pageCount pages = pageCount (slice pages a b) + pageCount (carve pages a b) :=
  total_slice_carve _ pages a b

structure Spared (pte : ℕ → Option ℕ) (a b : ℕ) (vma : VirtMemoryAddr) : Prop where
  first : a ≤ vma.startVaddr
  last : vma.endVaddr ≤ b
  pages : vma.mapType = .framed → ∀ v, vma.startVaddr / 4096 ≤ v → v < vma.endVaddr / 4096 →
    vma.pma.pageManager[v]? = none
  entries : ∀ v, vma.startVaddr / 4096 ≤ v → v < vma.endVaddr / 4096 → pte v = none

theorem carve_eq_self (h : ∀ v, x ≤ v → v < y → pages[v]? = none) : carve pages x y = pages := by
  apply Std.ExtTreeMap.ext_getElem?
  intro v
  rw [getElem?_carve]
  split_ifs with hv
  · exact (h v hv.1 hv.2).symm
  · rfl

theorem slice_empty (h : pageCount (slice pages x y) = 0) :
    ∀ v, x ≤ v → v < y → pages[v]? = none := by
  intro v hx hy
  by_contra hc
  obtain ⟨page,hp⟩ := Option.ne_none_iff_exists'.mp hc
  have hin : (slice pages x y)[v]? = some page := by
    rw [getElem?_slice,if_pos ⟨hx,hy⟩]
    exact hp
  have hle := weightAt_le_total (fun _ => 1) (slice pages x y) v
  rw [weightAt_some hin] at hle
  unfold pageCount at h
  omega

theorem emptied_spared (h : vma.mapType = .framed → ∀ v, vma.startVaddr / 4096 ≤ v →
    v < vma.endVaddr / 4096 → vma.pma.pageManager[v]? = none) : emptied vma = vma := by
  unfold emptied
  split
  · rename_i hf
    rw [carve_eq_self (h hf)]
  · rfl

theorem emptied_weight (vma : VirtMemoryAddr) : weight (emptied vma) ≤ weight vma ∧
    (weight (emptied vma) = weight vma → vma.mapType = .framed → ∀ v,
      vma.startVaddr / 4096 ≤ v → v < vma.endVaddr / 4096 → vma.pma.pageManager[v]? = none) := by
  unfold emptied
  split
  · have hparts := pageCount_parts vma.pma.pageManager (vma.startVaddr / 4096)
      (vma.endVaddr / 4096)
    refine ⟨?_,fun heq _ => slice_empty ?_⟩
    · unfold weight
      dsimp only
      omega
    · unfold weight at heq
      dsimp only at heq
      omega
  · rename_i hd
    refine ⟨le_rfl,fun _ hf => ?_⟩
    rw [hf] at hd
    cases hd

def cutWeight (r : VirtMemoryAddr × Option VirtMemoryAddr) : ℕ := weight r.1 + r.2.elim 0 weight

theorem cutVma_weight (vma : VirtMemoryAddr) (hab : a < b) :
    cutWeight (cutVma vma a b) ≤ weight vma ∧
    (cutWeight (cutVma vma a b) = weight vma → Overlaps vma a b → a ≤ vma.startVaddr ∧
      vma.endVaddr ≤ b ∧ (vma.mapType = .framed → ∀ v, vma.startVaddr / 4096 ≤ v →
        v < vma.endVaddr / 4096 → vma.pma.pageManager[v]? = none)) := by
  by_cases ho : Overlaps vma a b
  swap
  · rw [cutVma_apart ho]
    exact ⟨le_rfl,fun _ hc => (ho hc).elim⟩
  have hov := overlaps_iff.mp ho
  by_cases ha : a ≤ vma.startVaddr <;> by_cases hb : b < vma.endVaddr
  · have hparts := pageCount_parts vma.pma.pageManager (b / 4096) (vma.endVaddr / 4096)
    rw [cutVma_left ho ha hb]
    simp only [cutWeight,weight,rightPart,Option.elim_none]
    exact ⟨by omega,fun heq => by omega⟩
  · rw [cutVma_whole ho ha (not_lt.mp hb)]
    obtain ⟨hle,heq⟩ := emptied_weight vma
    exact ⟨hle,fun hw _ => ⟨ha,not_lt.mp hb,heq hw⟩⟩
  · have hparts := pageCount_parts vma.pma.pageManager (b / 4096) (vma.endVaddr / 4096)
    have hinner := pageCount_parts (carve vma.pma.pageManager (b / 4096) (vma.endVaddr / 4096))
      (a / 4096) (b / 4096)
    rw [cutVma_inside ho (not_le.mp ha) hb]
    simp only [cutWeight,weight,rightPart,leftPart,Option.elim_some]
    exact ⟨by omega,fun heq => by omega⟩
  · have hparts := pageCount_parts vma.pma.pageManager (a / 4096) (vma.endVaddr / 4096)
    rw [cutVma_right ho (not_le.mp ha) (not_lt.mp hb)]
    simp only [cutWeight,weight,leftPart,Option.elim_none]
    exact ⟨by omega,fun heq => by omega⟩

section Rounds

variable {w : View} {i : ℕ}

theorem cutAt_weight (hi : w.areas[i]? = some vma) :
    total weight (cutAt a b w i).areas + weight vma ≤
      total weight w.areas + cutWeight (cutVma vma a b) := by
  have hins := total_insert weight w.areas i (cutVma vma a b).1
  rw [weightAt_some hi] at hins
  unfold cutAt cutWeight
  simp only [hi]
  cases hc : (cutVma vma a b).2 with
  | none =>
    dsimp only [Option.elim_none]
    omega
  | some right =>
    have hins' := total_insert weight (w.areas.insert i (cutVma vma a b).1) right.startVaddr right
    dsimp only [Option.elim_some]
    omega

theorem cutAt_areas_eq (hab : a < b) :
    total weight (cutAt a b w i).areas ≤ total weight w.areas ∧
      (total weight (cutAt a b w i).areas = total weight w.areas →
        (cutAt a b w i).areas = w.areas ∧ ∀ vma, w.areas[i]? = some vma → Overlaps vma a b →
          a ≤ vma.startVaddr ∧ vma.endVaddr ≤ b ∧ (vma.mapType = .framed →
            ∀ v, vma.startVaddr / 4096 ≤ v → v < vma.endVaddr / 4096 →
              vma.pma.pageManager[v]? = none)) := by
  cases hi : w.areas[i]? with
  | none =>
    rw [cutAt_none hi]
    exact ⟨le_rfl,fun _ => ⟨rfl,fun vma hv => by cases hv⟩⟩
  | some vma =>
    have hround := cutAt_weight (a := a) (b := b) hi
    obtain ⟨hle,heq⟩ := cutVma_weight vma hab
    refine ⟨by omega,fun hw => ?_⟩
    have hcut : cutWeight (cutVma vma a b) = weight vma := by omega
    have hspared := heq hcut
    refine ⟨?_,fun v hv ho => ?_⟩
    · have hself : cutVma vma a b = (vma, none) := by
        by_cases ho : Overlaps vma a b
        · obtain ⟨h₁,h₂,h₃⟩ := hspared ho
          rw [cutVma_whole ho h₁ h₂,emptied_spared h₃]
        · exact cutVma_apart ho
      unfold cutAt
      simp only [hi,hself]
      exact insert_self hi
    · cases hv
      exact hspared ho

theorem cutAt_pte_none (hv : w.pte v = none) : (cutAt a b w i).pte v = none := by
  cases hi : w.areas[i]? with
  | none => rw [cutAt_none hi,hv]
  | some vma =>
    rw [cutAt_pte hi]
    split
    · rfl
    · exact hv

theorem rounds_pte_none : ∀ (keys : List ℕ) (w : View), w.pte v = none →
    (keys.foldl (cutAt a b) w).pte v = none := by
  intro keys
  induction keys with
  | nil => exact fun w hw => hw
  | cons i keys ih => exact fun w hw => ih _ (cutAt_pte_none hw)

theorem rounds_weight (hab : a < b) : ∀ (keys : List ℕ) (w : View),
    total weight (keys.foldl (cutAt a b) w).areas ≤ total weight w.areas := by
  intro keys
  induction keys with
  | nil => exact fun w => le_rfl
  | cons i keys ih => exact fun w => (ih _).trans (cutAt_areas_eq hab).1

theorem cutAt_spared (h : ∀ vma, w.areas[i]? = some vma → Overlaps vma a b →
    Spared w.pte a b vma) : cutAt a b w i = w := by
  cases hi : w.areas[i]? with
  | none => exact cutAt_none hi
  | some vma =>
    by_cases ho : Overlaps vma a b
    · have hs := h vma hi ho
      have hself : cutVma vma a b = (vma, none) := by
        rw [cutVma_whole ho hs.first hs.last,emptied_spared hs.pages]
      ext1
      · unfold cutAt
        simp only [hi,hself]
        exact insert_self hi
      · funext v
        rw [cutAt_pte hi]
        split_ifs with hc
        · obtain ⟨-,h₁,h₂⟩ := hc
          rw [max_eq_right hs.first] at h₁
          rw [min_eq_right hs.last] at h₂
          exact (hs.entries v h₁ h₂).symm
        · rfl
    · ext1
      · unfold cutAt
        simp only [hi,cutVma_apart ho]
        exact insert_self hi
      · funext v
        rw [cutAt_pte hi,if_neg fun hc : Cleared vma a b v => ho hc.1]

theorem rounds_fixed (hab : a < b) : ∀ (keys : List ℕ) (w : View), keys.foldl (cutAt a b) w = w →
    ∀ i ∈ keys, ∀ vma, w.areas[i]? = some vma → Overlaps vma a b → Spared w.pte a b vma := by
  intro keys
  induction keys with
  | nil =>
    intro w _ i hi
    cases hi
  | cons j keys ih =>
    intro w hfix
    rw [List.foldl_cons] at hfix
    have hweight := rounds_weight hab keys (cutAt a b w j)
    rw [hfix] at hweight
    obtain ⟨hle,heq⟩ := cutAt_areas_eq (w := w) (i := j) hab
    obtain ⟨hareas,hcover⟩ := heq (le_antisymm hle hweight)
    have hspared : ∀ vma, w.areas[j]? = some vma → Overlaps vma a b → Spared w.pte a b vma := by
      intro vma hj ho
      obtain ⟨h₁,h₂,h₃⟩ := hcover vma hj ho
      refine ⟨h₁,h₂,h₃,fun v hv₁ hv₂ => ?_⟩
      have hcleared : (cutAt a b w j).pte v = none := by
        rw [cutAt_pte hj,if_pos (show Cleared vma a b v from ⟨ho,?_,?_⟩)]
        · rwa [max_eq_right h₁]
        · rwa [min_eq_right h₂]
      have hlate := rounds_pte_none (a := a) (b := b) keys _ hcleared
      rwa [hfix] at hlate
    have hround := cutAt_spared hspared
    rw [hround] at hfix
    intro i hi vma hv ho
    rcases List.mem_cons.mp hi with rfl | hi
    · exact hspared vma hv ho
    · exact ih w hfix i hi vma hv ho

theorem unmap_eq_self_iff (w : View) (hlt : first < last) :
    w.unmap first last = w ↔ ∀ (k : ℕ) (vma : VirtMemoryAddr), w.areas[k]? = some vma →
      Overlaps vma first last → Spared w.pte (pageDown first) (pageUp last) vma := by
  have hab : pageDown first < pageUp last := by
    unfold pageDown pageUp
    omega
  unfold View.unmap
  rw [if_neg hlt.ne]
  constructor
  · intro hfix k vma hk ho
    exact rounds_fixed hab _ w hfix k (mem_overlapKeys.mpr ⟨vma,hk,ho⟩) vma hk (overlaps_pages ho)
  · intro h
    have hround : ∀ i ∈ overlapKeys w.areas first last,
        cutAt (pageDown first) (pageUp last) w i = w := by
      intro i hi
      obtain ⟨vma,hk,ho⟩ := mem_overlapKeys.mp hi
      refine cutAt_spared fun vma' hk' _ => ?_
      rw [hk] at hk'
      cases hk'
      exact h i vma hk ho
    generalize overlapKeys w.areas first last = keys at hround
    induction keys with
    | nil => rfl
    | cons i keys ih =>
      rw [List.foldl_cons,hround i List.mem_cons_self]
      exact ih fun j hj => hround j (List.mem_cons_of_mem _ hj)

end Rounds

section Failure

/-- Nothing is unmapped: the call does not come that far, or there is nothing to take. -/
def NothingTaken (w : View) (addr length : ℕ) (flags : BitVec 32) (offset : ℕ) : Prop :=
  mmapRejects addr length offset flags = true ∨ isFixed flags = false ∨ addr = 0 ∨
    ∀ (k : ℕ) (vma : VirtMemoryAddr), w.areas[k]? = some vma →
      Overlaps vma addr (wrappingAdd addr length) →
      Spared w.pte (pageDown addr) (pageUp (wrappingAdd addr length)) vma

variable {w : View} {fds : BTreeMap File} {addr length : ℕ} {prot flags : BitVec 32}
variable {fd offset : ℕ}

theorem mmapFinish_error {backing : Except Errno (Option BackenFile)}
    (h : mmapFinish w first last prot backing = (w', .error e)) : w' = w := by
  cases backing with
  | error e' =>
    cases h
    rfl
  | ok file => cases h

theorem unmap_eq_self_iff_ready (hne : first ≠ last) (ready : w.UnmapReady first last) :
    w.unmap first last = w ↔ ∀ (k : ℕ) (vma : VirtMemoryAddr), w.areas[k]? = some vma →
      Overlaps vma first last → Spared w.pte (pageDown first) (pageUp last) vma := by
  rcases ready with heq | hnil | ⟨hle,-⟩
  · exact (hne heq).elim
  · constructor
    · intro _ k vma hk
      have hmem := mem_toList.mpr hk
      rw [hnil] at hmem
      cases hmem
    · intro _
      unfold View.unmap
      rw [if_neg hne,overlapKeys_empty hnil]
      rfl
  · exact unmap_eq_self_iff w (lt_of_le_of_ne hle hne)

theorem mmapView_error_iff (hlength : length < 2 ^ 64)
    (ready : MmapReady w addr length flags offset)
    (h : mmapView w fds addr length prot flags fd offset = (w', .error e)) :
    w' = w ↔ NothingTaken w addr length flags offset := by
  unfold mmapView at h
  by_cases hrej : mmapRejects addr length offset flags = true
  · rw [if_pos hrej] at h
    cases h
    exact ⟨fun _ => .inl hrej,fun _ => rfl⟩
  rw [if_neg hrej] at h
  by_cases hfix : isFixed flags = true
  swap
  · rw [if_neg hfix] at h
    refine ⟨fun _ => .inr (.inl (Bool.eq_false_iff.mpr hfix)),fun _ => ?_⟩
    cases hfind : VmaRange.findAnywhere w.areas addr length with
    | none =>
      rw [hfind] at h
      cases h
      rfl
    | some a =>
      rw [hfind] at h
      exact mmapFinish_error h
  rw [if_pos hfix] at h
  by_cases hzero : addr = 0
  · rw [if_pos hzero] at h
    cases h
    exact ⟨fun _ => .inr (.inr (.inl hzero)),fun _ => rfl⟩
  rw [if_neg hzero] at h
  have hready := ready (Bool.eq_false_iff.mpr hrej)
  rw [if_pos hfix] at hready
  have hne : addr ≠ wrappingAdd addr length := by
    have hlength' : length ≠ 0 := by
      rintro rfl
      simp [mmapRejects] at hrej
    unfold wrappingAdd wordSize
    omega
  have hiff := unmap_eq_self_iff_ready hne (hready hzero).1
  rw [mmapFinish_error h,hiff]
  unfold NothingTaken
  simp only [hrej,hfix,hzero,Bool.true_eq_false,Bool.false_eq_true,false_or]

end Failure

/-- A failing `sys_mmap` leaves the address space as it was exactly when its `MAP_FIXED` range
had nothing to take. -/
theorem mmap_failure_unchanged_iff (root : ℕ) (K : ℕ → Prop) (p : Process) (m : Machine)
    (own : Owned root K p.vm m) (addr length : ℕ) (hlength : length < 2 ^ 64)
    (prot flags : BitVec 32) (fd offset : ℕ) (p' : Process) (e : Errno) (m' : Machine)
    (fails : sysMmap p addr length prot flags fd offset m = .ok (p', .error e) m') :
    (p'.vm.areas = p.vm.areas ∧ ∀ v, pteAt m' root v = pteAt m root v) ↔
      NothingTaken (msView p.vm m root) addr length flags offset := by
  obtain ⟨-,-,ready,hview⟩ :=
    (sysMmap_space own addr length prot flags fd offset).of_ok fails
  rw [← mmapView_error_iff hlength ready hview.symm,View.ext_iff,funext_iff]
  exact Iff.rfl

def touchedPage : List Call := [.mmap 0x10000 0x1000 3 0x32 0 0, .fault 0x10000]

/-- Mapping a file that is not open next to the page fails and changes nothing. -/
theorem mmap_failure_unchanged_beside : ∃ root p m p' m',
    sysMmap p 0x20000 0x1000 3 0x12 7 0 m = .ok (p', .error .EBADF) m' ∧
    (pteAt m root 0x10).isSome = true ∧
    p'.vm.areas = p.vm.areas ∧ ∀ v, pteAt m' root v = pteAt m root v := by
  have computed : fromBoot 64 touchedPage (fun p m =>
      (pteAt m (p.vm.pt.rootPaddr / 4096) 0x10).isSome &&
      (p.vm.areas.toList.all fun e => !decide (Overlaps e.2 0x20000 0x21000)) &&
      returnsWith (sysMmap p 0x20000 0x1000 3 0x12 7 0) m fun r _ =>
        r.2 == .error .EBADF) = true := by
    decide +kernel
  obtain ⟨root,K,-,-,p,m,-,-,own,-,hroot,computed⟩ :=
    fromBoot_elim (by decide) computed
  simp only [Bool.and_eq_true,hroot] at computed
  obtain ⟨⟨hentry,hareas⟩,computed⟩ := computed
  obtain ⟨⟨p',r⟩,m',fails,hr⟩ := returnsWith_elim computed
  cases beq_iff_eq.mp hr
  refine ⟨root,p,m,p',m',fails,hentry,(mmap_failure_unchanged_iff root K p m own 0x20000
    0x1000 (by decide) 3 0x12 7 0 p' _ m' fails).mpr ?_⟩
  refine .inr (.inr (.inr fun k vma hk ho => ?_))
  have hapart := all_toList hareas hk
  rw [Bool.not_eq_true',decide_eq_false_iff_not] at hapart
  exact (hapart ho).elim

/-- Mapping it over the page fails too, and the page is gone. -/
theorem mmap_failure_loses_page : ∃ ms m₁ p m p' m',
    MemorySet.newUser (bootMachine 64) = .ok ms m₁ ∧
    Runs Call.exec (fun _ _ _ => True) ⟨ms, ∅⟩ m₁ p m ∧
    sysMmap p 0x10000 0x1000 3 0x12 7 0 m = .ok (p', .error .EBADF) m' ∧
    p.vm.areas ≠ p'.vm.areas ∧ (entryAt m (p.vm.pt.rootPaddr / 4096) 0x10000).isSome = true ∧
    entryAt m' (p'.vm.pt.rootPaddr / 4096) 0x10000 = none := by
  have computed : fromBoot 64 touchedPage (fun p m =>
      (entryAt m (p.vm.pt.rootPaddr / 4096) 0x10000).isSome &&
      returnsWith (sysMmap p 0x10000 0x1000 3 0x12 7 0) m fun r m' =>
        r.2 == .error .EBADF && entryAt m' (r.1.vm.pt.rootPaddr / 4096) 0x10000 == none &&
        (p.vm.areas[0x10000]?.map fun vma => vma.pma.pageManager.size) !=
          r.1.vm.areas[0x10000]?.map fun vma => vma.pma.pageManager.size) = true := by
    decide +kernel
  obtain ⟨-,-,ms,m₁,p,m,created,run,-,-,-,computed⟩ :=
    fromBoot_elim (by decide) computed
  rw [Bool.and_eq_true] at computed
  obtain ⟨hentry,computed⟩ := computed
  obtain ⟨⟨p',r⟩,m',fails,computed⟩ := returnsWith_elim computed
  simp only [Bool.and_eq_true,beq_iff_eq,bne_iff_ne] at computed
  obtain ⟨⟨rfl,hgone⟩,hareas⟩ := computed
  exact ⟨ms,m₁,p,m,p',m',created,run,fails,fun heq => hareas (by rw [heq]),hentry,hgone⟩

end DuckOs.MmapFailure
