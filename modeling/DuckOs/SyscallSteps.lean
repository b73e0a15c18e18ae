import DuckOs.MemorySyscalls
import DuckOs.SpaceOperations

namespace DuckOs.SyscallSteps
open ExecutionRules AddressModel PermissionFlags KernelMachine PageTableModel PageTableTree
open BootMachine PageTableSharing PageModel VirtMemoryModel MemorySetModel MemorySyscalls
open FrameOwnership SegmentViews AreaUnmap PageInstalls SpaceOperations
open OrderedMaps

variable {m : Machine} {p : Process} {root : ℕ} {K : ℕ → Prop}

inductive Call where
  | mmap (addr length : ℕ) (prot flags : BitVec 32) (fd offset : ℕ)
  | munmap (addr length : ℕ)
  | mprotect (addr len : ℕ) (prot : BitVec 32)
  | brk (addr : ℕ)
  | fault (vaddr : ℕ)

def faultStep (self : Process) (vaddr : ℕ) : Kernel (Process × Except Errno Unit) := do
  let r ← self.vm.handlePageFault vaddr
  pure ({ self with vm := r.1 }, r.2)

/-- The process after a call, whatever the call returned. -/
def Call.exec : Call → Process → Kernel Process
  | .mmap addr length prot flags fd offset, p => do
    let r ← sysMmap p addr length prot flags fd offset
    pure r.1
  | .munmap addr length, p => do
    let r ← sysMunmap p addr length
    pure r.1
  | .mprotect addr len prot, p => do
    let r ← sysMprotect p addr len prot
    pure r.1
  | .brk addr, p => do
    let r ← sysBrk p addr
    pure r.1
  | .fault vaddr, p => do
    let r ← faultStep p vaddr
    pure r.1

def isFixed (flags : BitVec 32) : Bool := contains (mmapFlagsUsed flags) MmapFlags.MAP_FIXED

def isAnonymous (flags : BitVec 32) : Bool :=
  contains (mmapFlagsUsed flags) MmapFlags.MAP_ANONYMOUS

section Mmap

def mmapBacking (fds : BTreeMap File) (flags : BitVec 32) (fd offset : ℕ) :
    Except Errno (Option BackenFile) :=
  if isAnonymous flags then if offset ≠ 0 then .error .EINVAL else .ok none
  else match fds[fd]? with
    | none => .error .EBADF
    | some file => .ok (some ⟨offset, file⟩)

def mmapVma (first last : ℕ) (prot : BitVec 32) (file : Option BackenFile) : VirtMemoryAddr :=
  freshVma first last (mmapPermission prot) .framed .mmap (some .mmap) file

def mmapFinish (w : View) (first last : ℕ) (prot : BitVec 32) :
    Except Errno (Option BackenFile) → View × SyscallResult
  | .error e => (w, .error e)
  | .ok file => (View.put w (mmapVma first last prot file), .ok (pageDown first))

def mmapView (w : View) (fds : BTreeMap File) (addr length : ℕ) (prot flags : BitVec 32)
    (fd offset : ℕ) : View × SyscallResult :=
  if mmapRejects addr length offset flags then (w, .error .EINVAL)
  else if isFixed flags then
    if addr = 0 then (w, .error .EINVAL)
    else mmapFinish (w.unmap addr (wrappingAdd addr length)) addr (wrappingAdd addr length) prot
      (mmapBacking fds flags fd offset)
  else match VmaRange.findAnywhere w.areas addr length with
    | none => (w, .error .ENOMEM)
    | some a => mmapFinish w a (wrappingAdd a length) prot (mmapBacking fds flags fd offset)

def MmapReady (w : View) (addr length : ℕ) (flags : BitVec 32) (offset : ℕ) : Prop :=
  mmapRejects addr length offset flags = false →
    if isFixed flags then
      addr ≠ 0 → w.UnmapReady addr (wrappingAdd addr length) ∧ checkUserVa addr = true ∧
        checkUserVa (wrappingAdd addr length) = true
    else ∀ a, VmaRange.findAnywhere w.areas addr length = some a →
      checkUserVa a = true ∧ checkUserVa (wrappingAdd a length) = true

structure Returned (root : ℕ) (K : ℕ → Prop) (p : Process) (p' : Process) (m' : Machine) :
    Prop where
  owned : Owned root K p'.vm m'
  fds : p'.fdTable = p.fdTable

theorem mmapInstall_space (own : Owned root K p.vm m) (first last : ℕ) (prot flags : BitVec 32)
    (fd offset : ℕ) :
    Holds (mmapInstall p (mmapVma first last prot none) (mmapFlagsUsed flags) fd offset) m
      (fun r m' => Returned root K p r.1 m' ∧ r.1.vm.heapEnd = p.vm.heapEnd ∧
        (msView r.1.vm m' root, r.2) =
          mmapFinish (msView p.vm m root) first last prot (mmapBacking p.fdTable flags fd offset))
      (Never Panic Machine) := by
  have insert : ∀ file, Holds (do
      let r ← p.vm.mmap (mmapVma first last prot none) file
      let start ← unwrap .unwrapNone r.2
      pure (({ p with vm := r.1 } : Process), (.ok start : SyscallResult))) m
      (fun r m' => Returned root K p r.1 m' ∧ r.1.vm.heapEnd = p.vm.heapEnd ∧
        (msView r.1.vm m' root, r.2) = mmapFinish (msView p.vm m root) first last prot (.ok file))
      (Never Panic Machine) := by
    intro file
    refine Holds.bind (mmap_space own first last _ _ _ _ file) ?_
    rintro ⟨ms,start⟩ m' ⟨rfl,own',hheap,hview⟩
    exact holds_pure ⟨⟨own',rfl⟩,hheap,Prod.ext hview rfl⟩
  unfold mmapInstall mmapBacking isAnonymous
  by_cases hanon : contains (mmapFlagsUsed flags) MmapFlags.MAP_ANONYMOUS = true
  · rw [if_pos hanon,if_pos hanon]
    by_cases hoff : offset ≠ 0
    · rw [if_pos hoff,if_pos hoff]
      exact holds_pure ⟨⟨own,rfl⟩,rfl,rfl⟩
    · rw [if_neg hoff,if_neg hoff]
      exact insert none
  · rw [if_neg hanon,if_neg hanon]
    cases p.fdTable[fd]? with
    | none => exact holds_pure ⟨⟨own,rfl⟩,rfl,rfl⟩
    | some file => exact insert (some ⟨offset,file⟩)

theorem sysMmap_space (own : Owned root K p.vm m) (addr length : ℕ) (prot flags : BitVec 32)
    (fd offset : ℕ) :
    Holds (sysMmap p addr length prot flags fd offset) m
      (fun r m' => Returned root K p r.1 m' ∧ r.1.vm.heapEnd = p.vm.heapEnd ∧
        MmapReady (msView p.vm m root) addr length flags offset ∧
        (msView r.1.vm m' root, r.2) =
          mmapView (msView p.vm m root) p.fdTable addr length prot flags fd offset)
      (fun _ _ => ¬ MmapReady (msView p.vm m root) addr length flags offset) := by
  unfold sysMmap mmapView
  by_cases hrej : mmapRejects addr length offset flags = true
  · rw [if_pos hrej,if_pos hrej]
    refine holds_pure ⟨⟨own,rfl⟩,rfl,fun hc => ?_,rfl⟩
    rw [hrej] at hc
    cases hc
  · rw [if_neg hrej,if_neg hrej]
    have hrej' : mmapRejects addr length offset flags = false := Bool.eq_false_iff.mpr hrej
    unfold mmapAlloc MmapReady isFixed
    by_cases hfix : contains (mmapFlagsUsed flags) MmapFlags.MAP_FIXED = true
    · rw [if_pos hfix,if_pos hfix]
      simp only [hfix,if_true]
      by_cases haddr : addr = 0
      · rw [if_pos haddr,if_pos haddr,pure_bind]
        exact holds_pure ⟨⟨own,rfl⟩,rfl,fun _ hc => (hc haddr).elim,rfl⟩
      · rw [if_neg haddr,if_neg haddr]
        simp only [bind_assoc]
        refine ((allocVmaFixed_space own addr (wrappingAdd addr length) (mmapPermission prot)
          .framed (some .mmap)).onError fun _ _ hf hr => hf (hr hrej' haddr)).bind ?_
        rintro ⟨ms₁,_⟩ m₁ ⟨rfl,hfirst,hlast,own₁,hheap₁,hready,hview₁⟩
        have own' : Owned root K ({ p with vm := ms₁ } : Process).vm m₁ := own₁
        refine (mmapInstall_space own' addr (wrappingAdd addr length) prot flags fd
          offset).weaken.imp ?_
        rintro r m' ⟨⟨own₂,hfds⟩,hheap,hview⟩
        refine ⟨⟨own₂,hfds⟩,hheap.trans hheap₁,fun _ _ => ⟨hready,hfirst,hlast⟩,?_⟩
        rw [hview]
        rw [hview₁]
    · rw [if_neg hfix,if_neg hfix]
      simp only [hfix,Bool.false_eq_true,if_false,bind_assoc]
      refine ((allocVmaAnywhere_holds addr length (mmapPermission prot) .framed
        (some .mmap)).onError ?_).bind ?_
      · rintro e m' ⟨a,ha,hf⟩ hr
        exact hf (hr hrej' a ha)
      rintro r _ ⟨rfl,⟨hnone,rfl⟩ | ⟨a,ha,hfirst,hlast,rfl⟩⟩
      · have hnone' : VmaRange.findAnywhere (msView p.vm m root).areas addr length = none := hnone
        rw [hnone']
        exact holds_pure ⟨⟨own,rfl⟩,rfl,fun _ a hc => (by cases hc),rfl⟩
      · have ha' : VmaRange.findAnywhere (msView p.vm m root).areas addr length = some a := ha
        rw [ha']
        refine (mmapInstall_space own a (wrappingAdd a length) prot flags fd offset).weaken.imp ?_
        rintro r m' ⟨⟨own₂,hfds⟩,hheap,hview⟩
        refine ⟨⟨own₂,hfds⟩,hheap,fun _ b hb => ?_,hview⟩
        cases hb
        exact ⟨hfirst,hlast⟩

end Mmap

section Others

theorem activate_keeps {ms : MemorySet} (own : Owned root K ms m) :
    Holds ms.activate m (fun _ m' => Owned root K ms m' ∧ msView ms m' root = msView ms m root)
      (Never Panic Machine) := by
  obtain ⟨⟨ext,s⟩,hcow⟩ := own
  refine (activate_space s).imp ?_
  rintro - m' ⟨s',hpte,-⟩
  refine ⟨⟨⟨ext,s'⟩,hcow⟩,?_⟩
  unfold msView viewOf
  rw [hpte]

theorem sysMprotect_eq (p : Process) (addr len : ℕ) (prot : BitVec 32) :
    ∃ r, sysMprotect p addr len prot = pure (p, r) := by
  unfold sysMprotect
  split
  · exact ⟨_,rfl⟩
  · cases mmapProtFromBits prot with
    | none => exact ⟨_,rfl⟩
    | some flags =>
      dsimp only
      rw [if_pos (contains_protNone flags)]
      exact ⟨_,rfl⟩

theorem munmapActivate_space (own : Owned root K p.vm m) (first last : ℕ) :
    Holds (do
        let vm ← p.vm.munmap first last
        vm.activate
        pure (({ p with vm := vm } : Process), (.ok 0 : SyscallResult))) m
      (fun r m' => Returned root K p r.1 m' ∧ r.1.vm.heapEnd = p.vm.heapEnd ∧ r.2 = .ok 0 ∧
        Effect (.munmap first last) (msView p.vm m root) (msView r.1.vm m' root))
      (fun _ _ => ¬ (msView p.vm m root).UnmapReady first last) := by
  refine (munmap_space own first last).bind ?_
  rintro ms₁ m₁ ⟨own₁,hheap,heffect⟩
  refine (activate_keeps own₁).weaken.bind ?_
  rintro - m₂ ⟨own₂,hview⟩
  refine holds_pure ⟨⟨own₂,rfl⟩,hheap,rfl,?_⟩
  rw [hview]
  exact heffect

def munmapRejects (addr length : ℕ) : Bool := !vaddrIsAlign addr || decide (length = 0)

theorem sysMunmap_space (own : Owned root K p.vm m) (addr length : ℕ) :
    Holds (sysMunmap p addr length) m
      (fun r m' => Returned root K p r.1 m' ∧ r.1.vm.heapEnd = p.vm.heapEnd ∧
        ((munmapRejects addr length = true ∧ r = (p, .error .EINVAL) ∧ m' = m) ∨
          (munmapRejects addr length = false ∧ r.2 = .ok 0 ∧
            Effect (.munmap addr (wrappingAdd addr length)) (msView p.vm m root)
              (msView r.1.vm m' root))))
      (fun _ _ => munmapRejects addr length = false ∧
        ¬ (msView p.vm m root).UnmapReady addr (wrappingAdd addr length)) := by
  change Holds (if munmapRejects addr length then _ else _) m _ _
  by_cases hrej : munmapRejects addr length = true
  · rw [if_pos hrej]
    exact holds_pure ⟨⟨own,rfl⟩,rfl,.inl ⟨hrej,rfl,rfl⟩⟩
  · rw [if_neg hrej]
    have hrej' : munmapRejects addr length = false := Bool.eq_false_iff.mpr hrej
    refine (munmapActivate_space own addr (wrappingAdd addr length)).mono ?_
      fun _ _ hf => ⟨hrej',hf⟩
    rintro r m' ⟨hret,hheap,hok,heffect⟩
    exact ⟨hret,hheap,.inr ⟨hrej',hok,heffect⟩⟩

def BrkEffect (heapEnd addr : ℕ) (w w' : View) : Prop :=
  w' = w ∨ (addr ≠ 0 ∧ heapEnd < addr ∧ Effect (.expand heapEnd addr) w w') ∨
    (addr ≠ 0 ∧ addr < heapEnd ∧ Effect (.munmap addr heapEnd) w w')

theorem sysBrk_space (own : Owned root K p.vm m) (addr : ℕ) :
    Holds (sysBrk p addr) m
      (fun r m' => Returned root K p r.1 m' ∧
        BrkEffect p.vm.heapEnd addr (msView p.vm m root) (msView r.1.vm m' root) ∧
        (r.1.vm.heapEnd = p.vm.heapEnd ∨ r.1.vm.heapEnd = addr) ∧
        (addr ≠ 0 → addr < p.vm.heapEnd → (msView p.vm m root).UnmapReady addr p.vm.heapEnd))
      (fun _ _ => addr ≠ 0 ∧ addr < p.vm.heapEnd ∧
        ¬ (msView p.vm m root).UnmapReady addr p.vm.heapEnd) := by
  unfold sysBrk
  by_cases hzero : addr = 0
  · rw [if_pos hzero]
    exact holds_pure ⟨⟨own,rfl⟩,.inl rfl,.inl rfl,fun hc => (hc hzero).elim⟩
  rw [if_neg hzero]
  by_cases hgrow : p.vm.heapEnd < addr
  · rw [if_pos hgrow]
    refine ((expand_space own p.vm.heapEnd addr).onError
      fun _ _ hf => (hf hgrow.le).elim).bind ?_
    rintro ⟨ms₁,r⟩ _ ⟨⟨own₁,hheap,heffect⟩,rfl,-⟩
    cases r with
    | error e =>
      exact holds_pure ⟨⟨own₁,rfl⟩,.inr (.inl ⟨hzero,hgrow,heffect⟩),.inl hheap,
        fun _ hlt => by omega⟩
    | ok grown =>
      have own₂ : Owned root K { ms₁ with heapEnd := addr } m := ⟨own₁.space,own₁.noCow⟩
      refine (activate_keeps own₂).weaken.bind ?_
      rintro - m₂ ⟨own₃,hview⟩
      refine holds_pure ⟨⟨own₃,rfl⟩,.inr (.inl ⟨hzero,hgrow,?_⟩),.inr rfl,
        fun _ hlt => by omega⟩
      rw [hview]
      exact heffect
  rw [if_neg hgrow]
  by_cases hshrink : addr < p.vm.heapEnd
  · rw [if_pos hshrink]
    refine (munmapActivate_space own addr p.vm.heapEnd).mono ?_
      fun _ _ hf => ⟨hzero,hshrink,hf⟩
    rintro r m' ⟨hret,hheap,-,heffect⟩
    exact ⟨hret,.inr (.inr ⟨hzero,hshrink,heffect⟩),.inl hheap,fun _ _ => heffect.1⟩
  · rw [if_neg hshrink]
    refine (activate_keeps own).weaken.bind ?_
    rintro - m₁ ⟨own₁,hview⟩
    exact holds_pure ⟨⟨own₁,rfl⟩,.inl hview,.inl rfl,fun _ hlt => (hshrink hlt).elim⟩

end Others

section Steps

inductive Issues : Call → ℕ → SpaceOp → Prop where
  | fixed {addr length : ℕ} {prot flags : BitVec 32} {fd offset heapEnd : ℕ}
      (file : Option BackenFile) (accepted : mmapRejects addr length offset flags = false)
      (fixed : isFixed flags = true) (nonzero : addr ≠ 0) :
      Issues (.mmap addr length prot flags fd offset) heapEnd
        (.mmapFixed addr (wrappingAdd addr length) (mmapPermission prot) .framed (some .mmap) file)
  | failed {addr length : ℕ} {prot flags : BitVec 32} {fd offset heapEnd : ℕ}
      (accepted : mmapRejects addr length offset flags = false)
      (fixed : isFixed flags = true) (nonzero : addr ≠ 0) :
      Issues (.mmap addr length prot flags fd offset) heapEnd
        (.munmap addr (wrappingAdd addr length))
  | anywhere {addr length : ℕ} {prot flags : BitVec 32} {fd offset heapEnd : ℕ}
      (file : Option BackenFile) (accepted : mmapRejects addr length offset flags = false)
      (free : isFixed flags = false) :
      Issues (.mmap addr length prot flags fd offset) heapEnd
        (.mmapAnywhere addr length (mmapPermission prot) .framed (some .mmap) file)
  | munmap {addr length heapEnd : ℕ} (accepted : munmapRejects addr length = false) :
      Issues (.munmap addr length) heapEnd (.munmap addr (wrappingAdd addr length))
  | grow {addr heapEnd : ℕ} (nonzero : addr ≠ 0) (grow : heapEnd < addr) :
      Issues (.brk addr) heapEnd (.expand heapEnd addr)
  | shrink {addr heapEnd : ℕ} (nonzero : addr ≠ 0) (shrink : addr < heapEnd) :
      Issues (.brk addr) heapEnd (.munmap addr heapEnd)
  | fault {vaddr heapEnd : ℕ} : Issues (.fault vaddr) heapEnd (.fault vaddr)

def CallEffect (call : Call) (heapEnd : ℕ) (w w' : View) : Prop :=
  w' = w ∨ ∃ op, Issues call heapEnd op ∧ Effect op w w'

theorem mmapView_effect {w : View} {fds : BTreeMap File} {addr length : ℕ} {prot flags : BitVec 32}
    {fd offset heapEnd : ℕ} (ready : MmapReady w addr length flags offset) :
    CallEffect (.mmap addr length prot flags fd offset) heapEnd w
      (mmapView w fds addr length prot flags fd offset).1 := by
  unfold mmapView
  by_cases hrej : mmapRejects addr length offset flags = true
  · rw [if_pos hrej]
    exact .inl rfl
  rw [if_neg hrej]
  have hrej' : mmapRejects addr length offset flags = false := Bool.eq_false_iff.mpr hrej
  have hready := ready hrej'
  by_cases hfix : isFixed flags = true
  · rw [if_pos hfix] at hready ⊢
    by_cases haddr : addr = 0
    · rw [if_pos haddr]
      exact .inl rfl
    rw [if_neg haddr]
    obtain ⟨hunmap,hfirst,hlast⟩ := hready haddr
    cases mmapBacking fds flags fd offset with
    | error e => exact .inr ⟨_,.failed hrej' hfix haddr,hunmap,rfl⟩
    | ok file => exact .inr ⟨_,.fixed file hrej' hfix haddr,hunmap,hfirst,hlast,rfl⟩
  · rw [if_neg hfix] at hready ⊢
    have hfix' : isFixed flags = false := Bool.eq_false_iff.mpr hfix
    cases hfind : VmaRange.findAnywhere w.areas addr length with
    | none => exact .inl rfl
    | some a =>
      obtain ⟨hfirst,hlast⟩ := hready a hfind
      cases mmapBacking fds flags fd offset with
      | error e => exact .inl rfl
      | ok file =>
        exact .inr ⟨_,.anywhere file hrej' hfix',.inr ⟨a,hfind,hfirst,hlast,rfl⟩⟩

theorem call_effect (own : Owned root K p.vm m) (call : Call) :
    Holds (call.exec p) m
      (fun p' m' => Returned root K p p' m' ∧
        CallEffect call p.vm.heapEnd (msView p.vm m root) (msView p'.vm m' root))
      (fun _ _ => True) := by
  cases call with
  | mmap addr length prot flags fd offset =>
    refine (sysMmap_space own addr length prot flags fd offset).orAny.bind ?_
    rintro r m' ⟨hret,-,hready,hview⟩
    refine holds_pure ⟨hret,?_⟩
    have hw : msView r.1.vm m' root = _ := congrArg Prod.fst hview
    rw [hw]
    exact mmapView_effect hready
  | munmap addr length =>
    refine (sysMunmap_space own addr length).orAny.bind ?_
    rintro r m' ⟨hret,-,⟨-,rfl,rfl⟩ | ⟨hrej,-,heffect⟩⟩
    · exact holds_pure ⟨hret,.inl rfl⟩
    · exact holds_pure ⟨hret,.inr ⟨_,.munmap hrej,heffect⟩⟩
  | mprotect addr len prot =>
    obtain ⟨r,hr⟩ := sysMprotect_eq p addr len prot
    simp only [Call.exec,hr,pure_bind]
    exact holds_pure ⟨⟨own,rfl⟩,.inl rfl⟩
  | brk addr =>
    refine (sysBrk_space own addr).orAny.bind ?_
    rintro r m' ⟨hret,hbrk,-⟩
    refine holds_pure ⟨hret,?_⟩
    rcases hbrk with hsame | ⟨hnz,hgrow,heffect⟩ | ⟨hnz,hshrink,heffect⟩
    · exact .inl hsame
    · exact .inr ⟨_,.grow hnz hgrow,heffect⟩
    · exact .inr ⟨_,.shrink hnz hshrink,heffect⟩
  | fault vaddr =>
    simp only [Call.exec,faultStep,bind_assoc,pure_bind]
    refine (handlePageFault_space own vaddr).bind ?_
    rintro r m' ⟨own',-,heffect⟩
    exact holds_pure ⟨⟨own',rfl⟩,.inr ⟨_,.fault,heffect⟩⟩

end Steps

section Start

/-- A kernel that is up: its table is a tree, and no frame in use is free. -/
structure Booted (m : Machine) (kernel : PageTable) (kroot : ℕ) : Prop where
  kernelSpace : m.kernelSpace = some kernel
  rootPaddr : kernel.rootPaddr = kroot * 4096
  tree : Tree m kroot (TableFrame m kroot)
  live : ∀ p, 0 < m.strong p →
    p ∉ m.frameAllocator.free ∧ ¬ TableFrame m kroot p ∧ InRam p
  caches : ∀ c (k : ℕ) page, (m.pageCaches c)[k]? = some page → 0 < m.strong page.ppn

theorem bootMachine_booted {n : ℕ} (hn : n ≤ 0x7c00) (hpos : 5 ≤ n) :
    ∃ kernel kroot, Booted (bootMachine n) kernel kroot := by
  obtain ⟨kernel,kroot,hk,r,hstrong,hcaches⟩ := bootMachine_table hn hpos
  refine ⟨kernel,kroot,hk,r.rootPaddr,tableFrame_tree r,fun p hp => ?_,fun c k page hp => ?_⟩
  · rw [hstrong] at hp
    exact absurd hp (lt_irrefl 0)
  · rw [hcaches] at hp
    cases hp

theorem newUser_owned {m : Machine} {kernel : PageTable} {kroot : ℕ}
    (b : Booted m kernel kroot) :
    Holds MemorySet.newUser m
      (fun ms m' => ∃ root, ms.areas = ∅ ∧ ms.heapEnd = 0 ∧
        Owned root (TableFrame m kroot) ms m' ∧ ∀ v, v < 2 ^ 20 → pteAt m' root v = none)
      (fun _ _ => m.frameAllocator.free = []) := by
  unfold MemorySet.newUser
  cases ha : m.frameAllocator.alloc with
  | none =>
    have hstop : PageTable.newUser m = .error .outOfFrames m := by
      exact bind_error (allocFrameUnwrap_none ha)
    exact holds_error (bind_error hstop) (alloc_eq_none ha)
  | some xr =>
    obtain ⟨x,rest⟩ := xr
    have hmem := alloc_mem ha
    have ut := copySlots_userTable b.tree ha
    unfold Holds
    rw [bind_ok (newUser_eq b.kernelSpace b.rootPaddr b.tree ha)]
    have hx : ¬ TableFrame m kroot x := fun hk => b.tree.notFree x hk hmem
    refine ⟨x,rfl,rfl,⟨⟨m.strong,rfl,ut.tree,fun p => ?_,fun p hp => ?_,b.caches⟩,rfl⟩,
      fun v hv => ?_⟩
    · change areasHeld ∅ p + m.strong p ≤ m.strong p
      rw [areasHeld,total_empty,Nat.zero_add]
    · obtain ⟨hp₁,hp₂,hp₃⟩ := b.live p hp
      refine ⟨fun hc => hp₁ (alloc_sub ha p hc),?_,hp₃⟩
      rintro (hc | hc)
      · rw [List.mem_singleton] at hc
        exact hp₁ (hc ▸ hmem)
      · exact hp₂ hc
    · have hle : v * 4096 ≤ userUpperLimit := by
        unfold userUpperLimit
        omega
      rw [pteAt_accepted (checkUserVa_of_le (by omega)),copySlots_entry hx hle]

variable {C : Call → Process → Machine → Prop} {p₀ : Process}
variable {m₀ : Machine}

theorem runs_owned (own : Owned root K p₀.vm m₀) (run : Runs Call.exec C p₀ m₀ p m) :
    Owned root K p.vm m := by
  refine Runs.invariant (fun q n => Owned root K q.vm n) ?_ run own
  intro call q n own' _
  exact (call_effect own' call).imp fun _ _ h => h.1.owned

end Start

end DuckOs.SyscallSteps
