import DuckOs.UnmapRounds

namespace DuckOs.AddressChecks
open ExecutionRules AddressModel KernelMachine BootMachine
open VirtMemoryModel MemorySetModel MemorySyscalls
open SegmentViews SegmentUnmap SpaceOperations SyscallSteps UnmapRounds
open OrderedMaps

variable {first last : ℕ} {areas : VmaRange} {vma : VirtMemoryAddr}

def FullyResident (areas : VmaRange) : Prop :=
  ∀ (k : ℕ) (vma : VirtMemoryAddr), areas[k]? = some vma →
    ∀ v, vma.startVaddr / 4096 ≤ v → v < vma.endVaddr / 4096 → vma.pma.pageManager[v]? ≠ none

structure RangeAccepted (lo hi : ℕ) : Prop where
  first : checkUserVa lo = true
  last : checkUserVa hi = true
  pages : ∀ v, lo / 4096 ≤ v → v < hi / 4096 → checkUserVa (v * 4096) = true

/-- What is checked of a segment that overlaps the pages of `[a, b)`. -/
structure CutAccepted (vma : VirtMemoryAddr) (a b : ℕ) : Prop where
  removed : RangeAccepted (max a vma.startVaddr) (min b vma.endVaddr)
  rest : b < vma.endVaddr → checkUserVa vma.endVaddr = true

/-- The pages that a cut moves to another segment are there: those from the first cut on. -/
def MovedResident (vma : VirtMemoryAddr) (a b : ℕ) : Prop :=
  ∀ v, (if vma.startVaddr < a then a else b) / 4096 ≤ v → v < vma.endVaddr / 4096 →
    vma.pma.pageManager[v]? ≠ none

def UnmapAccepted (areas : VmaRange) (first last : ℕ) : Prop :=
  first = last ∨ areas.toList = [] ∨
    (first ≤ last ∧ ∀ (k : ℕ) (vma : VirtMemoryAddr), areas[k]? = some vma →
      Overlaps vma first last → checkUserVa first = true ∧ checkUserVa last = true ∧
        CutAccepted vma (pageDown first) (pageUp last))

def MmapAccepted (areas : VmaRange) (addr length : ℕ) (flags : BitVec 32) (offset : ℕ) : Prop :=
  mmapRejects addr length offset flags = false →
    if isFixed flags then
      addr ≠ 0 → UnmapAccepted areas addr (wrappingAdd addr length) ∧ checkUserVa addr = true ∧
        checkUserVa (wrappingAdd addr length) = true
    else ∀ a, VmaRange.findAnywhere areas addr length = some a →
      checkUserVa a = true ∧ checkUserVa (wrappingAdd a length) = true

def MunmapAccepted (areas : VmaRange) (addr length : ℕ) : Prop :=
  munmapRejects addr length = false → UnmapAccepted areas addr (wrappingAdd addr length)

/-- Only a shrinking heap is unmapped. -/
def BrkAccepted (areas : VmaRange) (heapEnd addr : ℕ) : Prop :=
  addr ≠ 0 → addr < heapEnd → UnmapAccepted areas addr heapEnd

section Cuts

variable {a b : ℕ}

theorem removeReady_iff :
    RemoveReady vma ↔ RangeAccepted vma.startVaddr vma.endVaddr :=
  ⟨fun h => ⟨h.first,h.limit,h.pages⟩,fun h => ⟨h.first,h.last,h.pages⟩⟩

theorem movedResident_of_start (ha : vma.startVaddr < a) :
    MovedResident vma a b ↔ ∀ v, a / 4096 ≤ v → v < vma.endVaddr / 4096 →
      vma.pma.pageManager[v]? ≠ none := by
  unfold MovedResident
  rw [if_pos ha]

theorem movedResident_of_le (ha : a ≤ vma.startVaddr) :
    MovedResident vma a b ↔ ∀ v, b / 4096 ≤ v → v < vma.endVaddr / 4096 →
      vma.pma.pageManager[v]? ≠ none := by
  unfold MovedResident
  rw [if_neg (not_lt.mpr ha)]

theorem movedResident_of_populated (hb : vma.startVaddr < b)
    (resident : ∀ v, vma.startVaddr / 4096 ≤ v → v < vma.endVaddr / 4096 →
      vma.pma.pageManager[v]? ≠ none) : MovedResident vma a b := by
  intro v h₁ h₂
  refine resident v ?_ h₂
  split at h₁ <;> omega

theorem leftPart_resident (hab : a ≤ b) (hb : b < vma.endVaddr) :
    ((∀ v, b / 4096 ≤ v → v < vma.endVaddr / 4096 → vma.pma.pageManager[v]? ≠ none) ∧
      ∀ v, a / 4096 ≤ v → v < b / 4096 → (leftPart vma b).pma.pageManager[v]? ≠ none) ↔
    ∀ v, a / 4096 ≤ v → v < vma.endVaddr / 4096 → vma.pma.pageManager[v]? ≠ none := by
  have hleft : ∀ v, v < b / 4096 →
      (leftPart vma b).pma.pageManager[v]? = vma.pma.pageManager[v]? := by
    intro v hv
    change (carve _ _ _)[v]? = _
    rw [getElem?_carve,if_neg (by omega)]
  constructor
  · rintro ⟨houter,hinner⟩ v h₁ h₂
    by_cases hv : v < b / 4096
    · rw [← hleft v hv]
      exact hinner v h₁ hv
    · exact houter v (by omega) h₂
  · intro h
    refine ⟨fun v h₁ h₂ => h v (by omega) h₂,fun v h₁ h₂ => ?_⟩
    rw [hleft v h₂]
    exact h v h₁ (by omega)

theorem cutReady_iff_moved (hab : a ≤ b) (ho : Overlaps vma a b) :
    CutReady vma a b ↔ CutAccepted vma a b ∧ MovedResident vma a b := by
  by_cases ha : a ≤ vma.startVaddr <;> by_cases hb : b < vma.endVaddr
  · rw [cutReady_left ho ha hb,removeReady_iff,movedResident_of_le ha]
    constructor
    · rintro ⟨hsplit,hrange⟩
      refine ⟨⟨?_,fun _ => hsplit.limit⟩,hsplit.resident⟩
      rw [max_eq_right ha,min_eq_left hb.le]
      exact hrange
    · rintro ⟨⟨hrange,hrest⟩,hmoved⟩
      rw [max_eq_right ha,min_eq_left hb.le] at hrange
      exact ⟨⟨hrange.last,hrest hb,hmoved⟩,hrange⟩
  · have hb' := not_lt.mp hb
    rw [cutReady_whole ho ha hb',removeReady_iff,movedResident_of_le ha]
    constructor
    · intro hrange
      refine ⟨⟨?_,fun hc => (hb hc).elim⟩,fun v h₁ h₂ => by omega⟩
      rw [max_eq_right ha,min_eq_right hb']
      exact hrange
    · rintro ⟨⟨hrange,-⟩,-⟩
      rw [max_eq_right ha,min_eq_right hb'] at hrange
      exact hrange
  · have ha' := not_le.mp ha
    rw [cutReady_inside ho ha' hb,removeReady_iff,movedResident_of_start ha',
      ← leftPart_resident hab hb]
    constructor
    · rintro ⟨houter,hinner,hrange⟩
      refine ⟨⟨?_,fun _ => houter.limit⟩,houter.resident,hinner.resident⟩
      rw [max_eq_left ha'.le,min_eq_left hb.le]
      exact hrange
    · rintro ⟨⟨hrange,hrest⟩,hmoved⟩
      rw [max_eq_left ha'.le,min_eq_left hb.le] at hrange
      exact ⟨⟨hrange.last,hrest hb,hmoved.1⟩,⟨hrange.first,hrange.last,hmoved.2⟩,hrange⟩
  · have ha' := not_le.mp ha
    have hb' := not_lt.mp hb
    rw [cutReady_right ho ha' hb',removeReady_iff,movedResident_of_start ha']
    constructor
    · rintro ⟨hsplit,hrange⟩
      refine ⟨⟨?_,fun hc => (hb hc).elim⟩,hsplit.resident⟩
      rw [max_eq_left ha'.le,min_eq_right hb']
      exact hrange
    · rintro ⟨⟨hrange,-⟩,hmoved⟩
      rw [max_eq_left ha'.le,min_eq_right hb'] at hrange
      exact ⟨⟨hrange.first,hrange.last,hmoved⟩,hrange⟩

theorem cutReady_iff (resident : ∀ v, vma.startVaddr / 4096 ≤ v → v < vma.endVaddr / 4096 →
    vma.pma.pageManager[v]? ≠ none) (hab : a ≤ b) (ho : Overlaps vma a b) :
    CutReady vma a b ↔ CutAccepted vma a b := by
  rw [cutReady_iff_moved hab ho]
  exact and_iff_left (movedResident_of_populated (overlaps_iff.mp ho).1 resident)

theorem pageDown_le_pageUp (h : first ≤ last) : pageDown first ≤ pageUp last := by
  unfold pageDown pageUp
  omega

theorem unmapReady_iff_accepted {w : View} (keys : KeysBelow w.areas)
    (resident : FullyResident w.areas) :
    w.UnmapReady first last ↔ UnmapAccepted w.areas first last := by
  rw [unmapReady_iff keys]
  refine or_congr_right (or_congr_right (and_congr_right fun hle => ?_))
  refine forall_congr' fun k => forall_congr' fun vma => forall_congr' fun hk =>
    forall_congr' fun ho => ?_
  rw [cutReady_iff (resident k vma hk) (pageDown_le_pageUp hle) (overlaps_pages ho)]

end Cuts

/-- The memory calls return exactly when the addresses they check are accepted. -/
theorem memory_calls_return_iff (root : ℕ) (K : ℕ → Prop) (p : Process) (m : Machine)
    (own : Owned root K p.vm m) (keys : KeysBelow p.vm.areas)
    (resident : FullyResident p.vm.areas) :
    (∀ addr length prot flags fd offset,
      (∃ r m', sysMmap p addr length prot flags fd offset m = .ok r m') ↔
        MmapAccepted p.vm.areas addr length flags offset) ∧
    (∀ addr length, (∃ r m', sysMunmap p addr length m = .ok r m') ↔
      MunmapAccepted p.vm.areas addr length) ∧
    (∀ addr len prot, ∃ r m', sysMprotect p addr len prot m = .ok r m') ∧
    (∀ addr, (∃ r m', sysBrk p addr m = .ok r m') ↔
      BrkAccepted p.vm.areas p.vm.heapEnd addr) := by
  have hunmap : ∀ first last, (msView p.vm m root).UnmapReady first last ↔
      UnmapAccepted p.vm.areas first last :=
    fun _ _ => unmapReady_iff_accepted (w := msView p.vm m root) keys resident
  refine ⟨fun addr length prot flags fd offset => ?_,fun addr length => ?_,
    fun addr len prot => ?_,fun addr => ?_⟩
  · have hmmap : MmapReady (msView p.vm m root) addr length flags offset ↔
        MmapAccepted p.vm.areas addr length flags offset := by
      unfold MmapReady MmapAccepted
      rw [hunmap]
      exact Iff.rfl
    rw [← hmmap]
    exact (sysMmap_space own addr length prot flags fd offset).returns_iff
      (fun _ _ h => h.2.2.1) fun _ _ h => h
  · unfold MunmapAccepted
    rw [← hunmap]
    refine (sysMunmap_space own addr length).returns_iff ?_ fun _ _ h hc => h.2 (hc h.1)
    rintro r m' ⟨-,-,⟨hrej,-,-⟩ | ⟨-,-,heffect⟩⟩ hacc
    · rw [hrej] at hacc
      cases hacc
    · exact heffect.1
  · obtain ⟨r,hr⟩ := sysMprotect_eq p addr len prot
    exact ⟨(p, r),m,by rw [hr]; rfl⟩
  · unfold BrkAccepted
    rw [← hunmap]
    exact (sysBrk_space own addr).returns_iff (fun _ _ h => h.2.2.2)
      fun _ _ h hc => h.2.2 (hc h.1 h.2.1)

/-- Below 4 GiB nothing is refused. -/
theorem cutAccepted_of_le {a b : ℕ} (hstart : vma.startVaddr ≤ 0xffffffff)
    (hend : vma.endVaddr ≤ 0xffffffff) (ha : a ≤ 0xffffffff) : CutAccepted vma a b :=
  ⟨⟨checkUserVa_of_le (by omega),checkUserVa_of_le (by omega),
    fun _ _ _ => checkUserVa_of_le (by omega)⟩,fun _ => checkUserVa_of_le hend⟩

def touchedPages : List Call :=
  [.mmap 0x10000 0x2000 3 0x32 0 0, .fault 0x10000, .fault 0x11000]

def onlyPages (areas : VmaRange) : Bool :=
  areas.toList.all fun e => e.1 == 0x10000 && e.2.startVaddr == 0x10000 &&
    e.2.endVaddr == 0x12000 &&
    (e.2.pma.pageManager[0x10]?).isSome && (e.2.pma.pageManager[0x11]?).isSome

theorem onlyPages_segment (h : onlyPages areas = true) {k : ℕ} (hk : areas[k]? = some vma) :
    k = 0x10000 ∧ vma.startVaddr = 0x10000 ∧ vma.endVaddr = 0x12000 ∧
      (vma.pma.pageManager[0x10]?).isSome = true ∧ (vma.pma.pageManager[0x11]?).isSome = true := by
  have hvma := all_toList h hk
  simp only [Bool.and_eq_true,beq_iff_eq] at hvma
  obtain ⟨⟨⟨⟨h₁,h₂⟩,h₃⟩,h₄⟩,h₅⟩ := hvma
  exact ⟨h₁,h₂,h₃,h₄,h₅⟩

theorem onlyPages_resident (h : onlyPages areas = true) : FullyResident areas := by
  intro k vma hk v h₁ h₂ hc
  obtain ⟨-,hstart,hend,hp₁,hp₂⟩ := onlyPages_segment h hk
  have hv : v = 0x10 ∨ v = 0x11 := by omega
  rcases hv with rfl | rfl
  · rw [hc] at hp₁
    cases hp₁
  · rw [hc] at hp₂
    cases hp₂

/-- The second page can be unmapped. -/
theorem memory_calls_return_second : ∃ ms m₁ p m,
    MemorySet.newUser (bootMachine 64) = .ok ms m₁ ∧
    Runs Call.exec (fun _ _ _ => True) ⟨ms, ∅⟩ m₁ p m ∧ FullyResident p.vm.areas ∧
    ∃ r m', sysMunmap p 0x11000 0x1000 m = .ok r m' := by
  have computed : fromBoot 64 touchedPages (fun p _ => onlyPages p.vm.areas) = true := by
    decide +kernel
  obtain ⟨root,K,ms,m₁,p,m,created,run,own,keys,-,only⟩ :=
    fromBoot_elim (by decide) computed
  have resident := onlyPages_resident only
  refine ⟨ms,m₁,p,m,created,run,resident,
    ((memory_calls_return_iff root K p m own keys resident).2.1 0x11000 0x1000).mpr fun _ =>
      .inr (.inr ⟨by decide,fun k vma hk _ => ⟨by decide,by decide,?_⟩⟩)⟩
  obtain ⟨-,hstart,hend,-,-⟩ := onlyPages_segment only hk
  exact cutAccepted_of_le (by omega) (by omega) (by decide)

/-- A length that wraps around, or one that leaves the user range, stops the kernel. -/
theorem munmap_length_stops_kernel : ∃ ms m₁ p m,
    MemorySet.newUser (bootMachine 64) = .ok ms m₁ ∧
    Runs Call.exec (fun _ _ _ => True) ⟨ms, ∅⟩ m₁ p m ∧ FullyResident p.vm.areas ∧
    (∃ m', sysMunmap p 0x12000 0xfffffffffffff000 m = .error .assertion m') ∧
    ∃ m', sysMunmap p 0x10000 0x200000000 m = .error .assertion m' := by
  have computed : fromBoot 64 touchedPages (fun p m => onlyPages p.vm.areas &&
      stopsWith (sysMunmap p 0x12000 0xfffffffffffff000) m (fun e _ => e == .assertion) &&
      stopsWith (sysMunmap p 0x10000 0x200000000) m (fun e _ => e == .assertion)) = true := by
    decide +kernel
  obtain ⟨-,-,ms,m₁,p,m,created,run,-,-,-,computed⟩ :=
    fromBoot_elim (by decide) computed
  simp only [Bool.and_eq_true] at computed
  obtain ⟨⟨only,hwrap⟩,hlong⟩ := computed
  obtain ⟨_,m',hwrap,he⟩ := stopsWith_elim hwrap
  cases beq_iff_eq.mp he
  obtain ⟨_,m'',hlong,he⟩ := stopsWith_elim hlong
  cases beq_iff_eq.mp he
  exact ⟨ms,m₁,p,m,created,run,onlyPages_resident only,⟨m',hwrap⟩,m'',hlong⟩

end DuckOs.AddressChecks
