import DuckOs.ProtectedRanges

namespace DuckOs.LazySplits
open ExecutionRules AddressModel KernelMachine
open VirtMemoryModel MemorySetModel MemorySyscalls FrameOwnership SegmentViews SegmentUnmap
open AreaUnmap SegmentProtect SpaceOperations SyscallSteps UnmapRounds AddressChecks BootMachine
open SegmentTables ProtectedRanges
open OrderedMaps

/-- The two parts have the ranges on both sides of the cut and share the pages accordingly. -/
structure Partition (vma : VirtMemoryAddr) (pos : ℕ) (left right : VirtMemoryAddr) : Prop where
  leftRange : left.startVaddr = vma.startVaddr ∧ left.endVaddr = pos
  rightRange : right.startVaddr = pos ∧ right.endVaddr = vma.endVaddr
  below : ∀ v : ℕ, left.pma.pageManager[v]? =
    if v < pos / 4096 then vma.pma.pageManager[v]? else none
  above : ∀ v : ℕ, right.pma.pageManager[v]? =
    if pos / 4096 ≤ v then vma.pma.pageManager[v]? else none

/-- A segment holds pages of its own range only. -/
def HoldsInside (vma : VirtMemoryAddr) : Prop :=
  ∀ v : ℕ, vma.pma.pageManager[v]? ≠ none →
    vma.startVaddr / 4096 ≤ v ∧ v < vma.endVaddr / 4096

/-- Unmapping returns: its bounds are accepted, and each segment it cuts has the pages that the
cut moves. -/
def UnmapLazily (areas : VmaRange) (first last : ℕ) : Prop :=
  first = last ∨ areas.toList = [] ∨
    (first ≤ last ∧ ∀ (k : ℕ) (vma : VirtMemoryAddr), areas[k]? = some vma →
      Overlaps vma first last → checkUserVa first = true ∧ checkUserVa last = true ∧
        CutAccepted vma (pageDown first) (pageUp last) ∧
        MovedResident vma (pageDown first) (pageUp last))

theorem partition_parts {vma : VirtMemoryAddr} {pos : ℕ} (inside : HoldsInside vma) :
    Partition vma pos (leftPart vma pos) (rightPart vma pos) := by
  refine ⟨⟨rfl,rfl⟩,⟨rfl,rfl⟩,fun v => ?_,fun v => ?_⟩
  · change (carve _ _ _)[v]? = _
    rw [getElem?_carve]
    by_cases hv : vma.pma.pageManager[v]? = none
    · simp [hv]
    · have hrange := inside v hv
      by_cases hpos : v < pos / 4096
      · rw [if_neg (by omega),if_pos hpos]
      · rw [if_pos (by omega),if_neg hpos]
  · change (slice _ _ _)[v]? = _
    rw [getElem?_slice]
    by_cases hv : vma.pma.pageManager[v]? = none
    · simp [hv]
    · have hrange := inside v hv
      by_cases hpos : pos / 4096 ≤ v
      · rw [if_pos (by omega),if_pos hpos]
      · rw [if_neg (by omega),if_neg hpos]

theorem unmapReady_iff_lazily {w : View} (keys : KeysBelow w.areas) {first last : ℕ} :
    w.UnmapReady first last ↔ UnmapLazily w.areas first last := by
  rw [unmapReady_iff keys]
  refine or_congr_right (or_congr_right (and_congr_right fun hle => ?_))
  refine forall_congr' fun k => forall_congr' fun vma => forall_congr' fun hk =>
    forall_congr' fun ho => ?_
  rw [cutReady_iff_moved (pageDown_le_pageUp hle) (overlaps_pages ho)]

/-- A split returns the two parts exactly when every page from the cut on is resident and both
ends of the right part are accepted, and the calls that split return accordingly; `sys_mprotect`
never gets to a split. -/
theorem lazy_split_iff (m : Machine) :
    (∀ (vma : VirtMemoryAddr) (pos : ℕ), HoldsInside vma → vma.startVaddr < pos →
      pos < vma.endVaddr →
      ((∃ left right, vma.split pos m = .ok (left, right) m ∧ Partition vma pos left right) ↔
        checkUserVa pos = true ∧ checkUserVa vma.endVaddr = true ∧
          ∀ v, pos / 4096 ≤ v → v < vma.endVaddr / 4096 → vma.pma.pageManager[v]? ≠ none)) ∧
    ∀ (root : ℕ) (K : ℕ → Prop) (p : Process), Owned root K p.vm m → Keyed p.vm.areas →
      (∀ addr length, (∃ r m', sysMunmap p addr length m = .ok r m') ↔
        (munmapRejects addr length = false →
          UnmapLazily p.vm.areas addr (wrappingAdd addr length))) ∧
      (∀ addr, (∃ r m', sysBrk p addr m = .ok r m') ↔
        (addr ≠ 0 → addr < p.vm.heapEnd → UnmapLazily p.vm.areas addr p.vm.heapEnd)) ∧
      (∀ addr len prot, ∃ r m', sysMprotect p addr len prot m = .ok r m') ∧
      (Apart p.vm.areas → NoneInside p.vm.areas →
        (∀ (k : ℕ) (vma : VirtMemoryAddr), p.vm.areas[k]? = some vma →
          Entered vma.pma.pageManager (pteAt m root)) →
        ∀ first last flags, first < last →
          ((∃ r m', VmaRange.mprotect p.vm.areas first last flags p.vm.pt m = .ok r m') ↔
            ∀ (k : ℕ) (vma : VirtMemoryAddr), p.vm.areas[k]? = some vma →
              Overlaps vma first last →
              CutsAccepted vma first last ∧ MovedResident vma first last)) := by
  refine ⟨?_,?_⟩
  · intro vma pos inside hs he
    have spec := split_holds (m := m) vma pos (Nat.div_le_div_right he.le)
    constructor
    · rintro ⟨left,right,hrun,-⟩
      obtain ⟨-,-,ready⟩ := spec.of_ok hrun
      exact ⟨ready.cut,ready.limit,ready.resident⟩
    · rintro ⟨hcut,hlimit,hresident⟩
      obtain ⟨r,m',hrun,rfl,rfl,-⟩ :=
        (spec.onError fun _ _ hn => hn ⟨hcut,hlimit,hresident⟩).returns
      exact ⟨_,_,hrun,partition_parts inside⟩
  · intro root K p own keyed
    have keys : KeysBelow p.vm.areas := fun k vma hk => (keyed k vma hk).ge
    have hunmap : ∀ first last, (msView p.vm m root).UnmapReady first last ↔
        UnmapLazily p.vm.areas first last :=
      fun _ _ => unmapReady_iff_lazily (w := msView p.vm m root) keys
    refine ⟨fun addr length => ?_,fun addr => ?_,fun addr len prot => ?_,?_⟩
    · rw [← hunmap]
      refine (sysMunmap_space own addr length).returns_iff ?_ fun _ _ h hc => h.2 (hc h.1)
      rintro r m' ⟨-,-,⟨hrej,-,-⟩ | ⟨-,-,heffect⟩⟩ hacc
      · rw [hrej] at hacc
        cases hacc
      · exact heffect.1
    · rw [← hunmap]
      exact (sysBrk_space own addr).returns_iff (fun _ _ h => h.2.2.2)
        fun _ _ h hc => h.2.2 (hc h.1 h.2.1)
    · obtain ⟨r,hr⟩ := sysMprotect_eq p addr len prot
      exact ⟨(p, r),m,by rw [hr]; rfl⟩
    · intro apart outside entered first last flags hlt
      obtain ⟨ext,space⟩ := own.space
      have hnum : AllNumbered p.vm.areas := fun k vma hk => numbered_of_entered (entered k vma hk)
      have spec := mprotect_space (a := first) (b := last) (h := fun _ => 0) flags p.vm.areas hnum
        (space.held_congr fun p => by omega)
      have ready := protect_ready_iff (w := viewOf p.vm.areas m root) hlt keyed apart outside flags
      have hmoved : RoundsModify first last flags (viewOf p.vm.areas m root)
          (overlapKeys p.vm.areas first last) ↔
          ∀ (k : ℕ) (vma : VirtMemoryAddr), p.vm.areas[k]? = some vma →
            Overlaps vma first last → CutsAccepted vma first last ∧
              MovedResident vma first last := by
        refine ready.trans (forall_congr' fun k => forall_congr' fun vma =>
          forall_congr' fun hk => forall_congr' fun ho => ?_)
        exact modifyReady_iff_moved hlt ho (entered k vma hk)
      rw [← hmoved]
      exact spec.returns_iff (fun _ _ h => h.1) fun _ _ hn => hn hlt.le

def lazyPages : List Call := [.mmap 0x10000 0x2000 3 0x32 0 0, .fault 0x10000]

def onlyLazy (areas : VmaRange) : Bool :=
  areas.toList.all fun e => e.2.startVaddr == 0x10000 && e.2.endVaddr == 0x12000 &&
    e.2.pma.pageManager.toList.all fun q => q.1 == 0x10 || q.1 == 0x11

theorem onlyLazy_segment {areas : VmaRange} (h : onlyLazy areas = true) {k : ℕ}
    {vma : VirtMemoryAddr} (hk : areas[k]? = some vma) :
    vma.startVaddr = 0x10000 ∧ vma.endVaddr = 0x12000 ∧ HoldsInside vma := by
  have hvma := all_toList h hk
  simp only [Bool.and_eq_true,beq_iff_eq,List.all_eq_true,Bool.or_eq_true] at hvma
  obtain ⟨⟨hstart,hend⟩,hpages⟩ := hvma
  refine ⟨hstart,hend,fun v hv => ?_⟩
  obtain ⟨page,hpage⟩ := Option.ne_none_iff_exists'.mp hv
  have hin := hpages (v, page) (mem_toList.mpr hpage)
  omega

/-- With both pages resident the segment is split between them. -/
theorem lazy_split_resident : ∃ ms m₁ p m vma left right,
    MemorySet.newUser (bootMachine 64) = .ok ms m₁ ∧
    Runs Call.exec (fun _ _ _ => True) ⟨ms, ∅⟩ m₁ p m ∧ p.vm.areas[0x10000]? = some vma ∧
    vma.split 0x11000 m = .ok (left, right) m ∧ Partition vma 0x11000 left right := by
  have computed : fromBoot 64 touchedPages (fun p _ => onlyLazy p.vm.areas &&
      heldBy p.vm.areas 0x10000 0x11) = true := by
    decide +kernel
  obtain ⟨-,-,ms,m₁,p,m,created,run,-,-,-,computed⟩ :=
    fromBoot_elim (by decide) computed
  obtain ⟨only,held⟩ := Bool.and_eq_true_iff.mp computed
  obtain ⟨vma,hk,hpage⟩ := heldBy_elim held
  obtain ⟨hstart,hend,inside⟩ := onlyLazy_segment only hk
  obtain ⟨left,right,hrun,parts⟩ := ((lazy_split_iff m).1 vma 0x11000 inside (by omega)
    (by omega)).mpr ⟨by decide,by rw [hend]; decide,fun v h₁ h₂ => by
      have hv : v = 0x11 := by omega
      exact hv ▸ hpage⟩
  exact ⟨ms,m₁,p,m,vma,left,right,created,run,hk,hrun,parts⟩

/-- The second page is not there, so the split between the two stops the kernel, and with it
the call that unmaps the first. -/
theorem lazy_split_stops : ∃ ms m₁ p m vma m' m'',
    MemorySet.newUser (bootMachine 64) = .ok ms m₁ ∧
    Runs Call.exec (fun _ _ _ => True) ⟨ms, ∅⟩ m₁ p m ∧ p.vm.areas[0x10000]? = some vma ∧
    vma.startVaddr = 0x10000 ∧ vma.endVaddr = 0x12000 ∧ HoldsInside vma ∧
    vma.split 0x11000 m = .error .unwrapNone m' ∧
    sysMunmap p 0x10000 0x1000 m = .error .unwrapNone m'' := by
  have computed : fromBoot 64 lazyPages (fun p m => onlyLazy p.vm.areas &&
      heldBy p.vm.areas 0x10000 0x10 &&
      (p.vm.areas[0x10000]?.all fun vma =>
        stopsWith (vma.split 0x11000) m fun e _ => e == .unwrapNone) &&
      stopsWith (sysMunmap p 0x10000 0x1000) m fun e _ => e == .unwrapNone) = true := by
    decide +kernel
  obtain ⟨-,-,ms,m₁,p,m,created,run,-,-,-,computed⟩ :=
    fromBoot_elim (by decide) computed
  simp only [Bool.and_eq_true] at computed
  obtain ⟨⟨⟨only,held⟩,hsplit⟩,hcall⟩ := computed
  obtain ⟨vma,hk,-⟩ := heldBy_elim held
  obtain ⟨hstart,hend,inside⟩ := onlyLazy_segment only hk
  rw [hk,Option.all_some] at hsplit
  obtain ⟨_,m',hsplit,he⟩ := stopsWith_elim hsplit
  cases beq_iff_eq.mp he
  obtain ⟨_,m'',hcall,he⟩ := stopsWith_elim hcall
  cases beq_iff_eq.mp he
  exact ⟨ms,m₁,p,m,vma,m',m'',created,run,hk,hstart,hend,inside,hsplit,hcall⟩

end DuckOs.LazySplits
