import DuckOs.SyscallSteps

namespace DuckOs.KernelEntries
open ExecutionRules AddressModel KernelMachine PageTableModel PageTableTree
open PageTableOperations PageTableSharing PageModel VirtMemoryModel MemorySetModel MemorySyscalls
open FrameOwnership SegmentViews SegmentUnmap SpaceOperations SyscallSteps
open BootMachine OrderedMaps

variable {va a : ℕ} {areas : VmaRange} {vma : VirtMemoryAddr} {w : View} {call : Call}

def Low (areas : VmaRange) : Prop :=
  ∀ (k : ℕ) (vma : VirtMemoryAddr), areas[k]? = some vma → k < virtio0 ∧ vma.endVaddr < virtio0

def SameKernel (w w' : View) : Prop := ∀ v, checkKernelVa (v * 4096) = true → w'.pte v = w.pte v

/-- A call stays away from the kernel windows. -/
def BelowKernel : Call → Prop
  | .mmap addr length _ flags _ _ =>
    if isFixed flags then addr < virtio0 ∧ wrappingAdd addr length < virtio0
    else addr < virtio0 ∨ addr + length < 2 ^ 64
  | .brk addr => addr < virtio0
  | _ => True

instance (call : Call) : Decidable (BelowKernel call) := by
  cases call <;> unfold BelowKernel <;> infer_instance

theorem kernel_page {v : ℕ} (h : checkKernelVa (v * 4096) = true) : virtio0 ≤ v * 4096 := by
  rw [checkKernelVa_iff] at h
  unfold virtio0 phyToVirtOffset
  omega

theorem virtio0_eq : virtio0 = 0xffffffff10001000 := rfl

theorem pageUp_low (hc : checkUserVa va = true) (h : va < virtio0) : pageUp va < virtio0 := by
  rw [checkUserVa_iff] at hc
  rw [virtio0_eq] at h ⊢
  unfold pageUp
  omega

theorem pageDown_le (va : ℕ) : pageDown va ≤ va := by
  unfold pageDown
  omega

theorem low_insert (h : Low areas) {key : ℕ} (hk : key < virtio0) (hv : vma.endVaddr < virtio0) :
    Low (areas.insert key vma) :=
  forall_insert h ⟨hk,hv⟩

theorem cutVma_low {b : ℕ} (h : vma.endVaddr < virtio0) : (cutVma vma a b).1.endVaddr < virtio0 ∧
      ∀ right, (cutVma vma a b).2 = some right →
        right.startVaddr < virtio0 ∧ right.endVaddr < virtio0 := by
  by_cases ho : Overlaps vma a b
  · have hov := overlaps_iff.mp ho
    by_cases ha : a ≤ vma.startVaddr <;> by_cases hb : b < vma.endVaddr
    · rw [cutVma_left ho ha hb]
      exact ⟨h,fun right hr => by cases hr⟩
    · rw [cutVma_whole ho ha (not_lt.mp hb)]
      refine ⟨?_,fun right hr => by cases hr⟩
      unfold emptied
      split <;> exact h
    · rw [cutVma_inside ho (not_le.mp ha) hb]
      refine ⟨lt_trans hov.2 h,fun right hr => ?_⟩
      cases hr
      exact ⟨lt_trans hb h,h⟩
    · rw [cutVma_right ho (not_le.mp ha) (not_lt.mp hb)]
      exact ⟨lt_trans hov.2 h,fun right hr => by cases hr⟩
  · rw [cutVma_apart ho]
    exact ⟨h,fun right hr => by cases hr⟩

theorem cutAt_low (h : Low w.areas) (a b i : ℕ) :
    Low (cutAt a b w i).areas ∧ SameKernel w (cutAt a b w i) := by
  refine ⟨cutAt_forall h fun vma hi => ?_,fun v hv => ?_⟩
  · obtain ⟨hstays,hright⟩ := cutVma_low (a := a) (b := b) (h i vma hi).2
    exact ⟨⟨(h i vma hi).1,hstays⟩,hright⟩
  · cases hi : w.areas[i]? with
    | none => rw [cutAt_none hi]
    | some vma =>
      rw [cutAt_pte hi,if_neg]
      rintro ⟨-,-,hlt⟩
      have hpage := kernel_page hv
      have hend := (h i vma hi).2
      omega

theorem unmap_low (h : Low w.areas) {first last : ℕ} (ready : w.UnmapReady first last) :
    Low (w.unmap first last).areas ∧ SameKernel w (w.unmap first last) := by
  refine unmap_induct (P := fun w' => Low w'.areas ∧ SameKernel w w') ⟨h,fun _ _ => rfl⟩ ready ?_
  rintro w' i - - ⟨hlow,hsame⟩ -
  obtain ⟨hlow',hsame'⟩ := cutAt_low hlow (pageDown first) (pageUp last) i
  exact ⟨hlow',fun v hv => (hsame' v hv).trans (hsame v hv)⟩

theorem findAnywhere_low (h : Low areas) {hint len : ℕ}
    (hhint : hint < virtio0 ∨ hint + len < 2 ^ 64)
    (hfind : VmaRange.findAnywhere areas hint len = some a) :
    a < virtio0 ∧ wrappingAdd a len < virtio0 := by
  obtain ⟨hge,hfrom,pre,post,hl,-,hlimit⟩ := findAnywhereLoop_some _ _ hfind
  have hlim : gapLimit post < virtio0 := by
    cases post with
    | nil => exact by decide
    | cons e post =>
      refine (h e.1 e.2 (mem_toList.mp ?_)).1
      rw [hl]
      exact List.mem_append_right _ List.mem_cons_self
  have hwrap : wrappingAdd a len < virtio0 := lt_of_le_of_lt hlimit hlim
  refine ⟨?_,hwrap⟩
  have hends : (∃ e ∈ areas.toList, a = e.2.endVaddr) → a < virtio0 := by
    rintro ⟨e,he,rfl⟩
    exact (h e.1 e.2 (mem_toList.mp he)).2
  rcases hfrom with hmax | hend
  · rcases hhint with hlow | hsum
    · rw [hmax]
      exact max_lt hlow (by decide)
    · -- without wrapping, a gap that starts in the windows could not end below them
      by_contra hc
      have ha : a = hint := by
        rcases max_choice hint mmapBottom with hm | hm
        · exact hmax.trans hm
        · have : a = mmapBottom := hmax.trans hm
          rw [this] at hc
          exact absurd (by decide) hc
      rw [ha] at hwrap hc
      rw [wrappingAdd_of_lt hsum] at hwrap
      omega
  · exact hends hend

section Calls

variable {root : ℕ} {K : ℕ → Prop}

theorem effect_low {heapEnd : ℕ} {op : SpaceOp} {w' : View} (issues : Issues call heapEnd op)
    (below : BelowKernel call) (h : Low w.areas) (effect : Effect op w w') :
    Low w'.areas ∧ SameKernel w w' := by
  cases issues with
  | fixed file accepted fixed nonzero =>
    obtain ⟨ready,hfirst,hlast,rfl⟩ := effect
    simp only [BelowKernel,fixed,if_true] at below
    obtain ⟨hlow,hsame⟩ := unmap_low h ready
    exact ⟨low_insert hlow (lt_of_le_of_lt (pageDown_le _) below.1) (pageUp_low hlast below.2),
      hsame⟩
  | failed accepted fixed nonzero =>
    obtain ⟨ready,rfl⟩ := effect
    exact unmap_low h ready
  | anywhere file accepted free =>
    simp only [BelowKernel,free,Bool.false_eq_true,if_false] at below
    rcases effect with ⟨-,rfl⟩ | ⟨a,hfind,hfirst,hlast,rfl⟩
    · exact ⟨h,fun _ _ => rfl⟩
    · obtain ⟨ha,hend⟩ := findAnywhere_low h below hfind
      exact ⟨low_insert h (lt_of_le_of_lt (pageDown_le _) ha) (pageUp_low hlast hend),
        fun _ _ => rfl⟩
  | munmap accepted =>
    obtain ⟨ready,rfl⟩ := effect
    exact unmap_low h ready
  | grow nonzero grow =>
    rcases effect with rfl | ⟨key,vma,found,-,-,rfl⟩
    · exact ⟨h,fun _ _ => rfl⟩
    · exact ⟨low_insert h (h key vma found).1 below,fun _ _ => rfl⟩
  | shrink nonzero shrink =>
    obtain ⟨ready,rfl⟩ := effect
    exact unmap_low h ready
  | fault =>
    rcases effect with rfl | ⟨key,vma,page,found,-,-,flags,rfl⟩
    · exact ⟨h,fun _ _ => rfl⟩
    · have hmem := mem_toList.mp (List.mem_of_find?_eq_some found)
      have hin := List.find?_some found
      simp only [VirtMemoryAddr.isContain,Bool.and_eq_true,decide_eq_true_eq] at hin
      obtain ⟨hkey,hend⟩ := h key vma hmem
      refine ⟨low_insert h hkey hend,fun v hv => ?_⟩
      refine Function.update_of_ne ?_ _ _
      rintro rfl
      have hpage := kernel_page hv
      omega

theorem call_low {p : Process} {m : Machine} (own : Owned root K p.vm m) (h : Low p.vm.areas)
    (below : BelowKernel call) : Holds (call.exec p) m
      (fun p' m' => Owned root K p'.vm m' ∧ Low p'.vm.areas ∧
        SameKernel (msView p.vm m root) (msView p'.vm m' root))
      (fun _ _ => True) := by
  refine (call_effect own call).imp ?_
  rintro p' m' ⟨hret,hsame | ⟨op,issues,effect⟩⟩
  · refine ⟨hret.owned,?_,fun v _ => by rw [hsame]⟩
    have hareas : p'.vm.areas = p.vm.areas := congrArg View.areas hsame
    rw [hareas]
    exact h
  · obtain ⟨hlow,hkernel⟩ := effect_low issues below h effect
    exact ⟨hret.owned,hlow,hkernel⟩

theorem kernelVa_page (h : checkKernelVa va = true) : checkKernelVa (va / 4096 * 4096) = true := by
  rw [checkKernelVa_iff] at h ⊢
  omega

theorem entryAt_page (m : Machine) (root : ℕ) (h : checkKernelVa va = true) :
    entryAt m root va = pteAt m root (va / 4096) := by
  have hpage := kernelVa_page h
  rw [checkKernelVa_iff] at h hpage
  have hva : checkUserVa va = true := by
    rw [checkUserVa_iff]
    omega
  have hbase : checkUserVa (va / 4096 * 4096) = true := by
    rw [checkUserVa_iff]
    omega
  have hpath := (path_eq_iff hva hbase).mpr (by omega)
  rw [pteAt_accepted hbase,entryAt,entryAt,hpath.1,hpath.2]

end Calls

/-- From a new address space on, calls that stay below the kernel windows leave every entry
of the windows as it was. -/
theorem kernel_entries_unchanged (m : Machine) (kernel : PageTable) (kroot : ℕ)
    (booted : Booted m kernel kroot) (fds : BTreeMap File) (ms : MemorySet) (m₁ : Machine)
    (created : MemorySet.newUser m = .ok ms m₁) (p : Process) (m' : Machine)
    (run : Runs Call.exec (fun call _ _ => BelowKernel call) ⟨ms, fds⟩ m₁ p m') :
    p.vm.pt.rootPaddr = ms.pt.rootPaddr ∧ ∀ va, checkKernelVa va = true →
      entryAt m' (p.vm.pt.rootPaddr / 4096) va = entryAt m₁ (ms.pt.rootPaddr / 4096) va := by
  obtain ⟨root,hareas,-,own,-⟩ := (newUser_owned booted).of_ok created
  have start : Low (⟨ms,fds⟩ : Process).vm.areas := by
    intro k vma hk
    rw [hareas] at hk
    cases hk
  have kept : Owned root (TableFrame m kroot) p.vm m' ∧ Low p.vm.areas ∧
      SameKernel (msView ms m₁ root) (msView p.vm m' root) := by
    refine Runs.invariant (fun q n => Owned root (TableFrame m kroot) q.vm n ∧ Low q.vm.areas ∧
      SameKernel (msView ms m₁ root) (msView q.vm n root)) ?_ run ⟨own,start,fun _ _ => rfl⟩
    rintro call q n ⟨own',hlow,hsame⟩ below
    refine (call_low own' hlow below).imp ?_
    rintro q' n' ⟨own'',hlow',hsame'⟩
    exact ⟨own'',hlow',fun v hv => (hsame' v hv).trans (hsame v hv)⟩
  obtain ⟨⟨⟨ext',s'⟩,-⟩,-,hsame⟩ := kept
  obtain ⟨⟨ext,s⟩,-⟩ := own
  refine ⟨s'.rootPaddr.trans s.rootPaddr.symm,fun va hva => ?_⟩
  have hroot : root * 4096 / 4096 = root := by omega
  rw [s'.rootPaddr,s.rootPaddr,hroot,entryAt_page m' root hva,entryAt_page m₁ root hva]
  exact hsame _ (kernelVa_page hva)

def lowCalls : List Call :=
  [.mmap 0x10000 0x2000 3 0x32 0 0, .fault 0x10000, .fault 0x11fff, .munmap 0x11000 0x1000]

theorem kernel_entries_unchanged_low : ∃ ms m₁ p m',
    MemorySet.newUser (bootMachine 64) = .ok ms m₁ ∧
    Runs Call.exec (fun call _ _ => BelowKernel call) ⟨ms, ∅⟩ m₁ p m' ∧
    (entryAt m' (p.vm.pt.rootPaddr / 4096) 0x10000).isSome = true ∧
    ∀ va, checkKernelVa va = true →
      entryAt m' (p.vm.pt.rootPaddr / 4096) va = entryAt m₁ (ms.pt.rootPaddr / 4096) va := by
  have computed : returnsWith MemorySet.newUser (bootMachine 64) (fun ms m₁ =>
      returnsWith (lowCalls.foldlM (fun p call => Call.exec call p) ⟨ms,∅⟩) m₁ fun p m' =>
        (entryAt m' (p.vm.pt.rootPaddr / 4096) 0x10000).isSome) = true := by
    decide +kernel
  obtain ⟨ms,m₁,created,computed⟩ := returnsWith_elim computed
  obtain ⟨p,m',hrun,hentry⟩ := returnsWith_elim computed
  have run : Runs Call.exec (fun call _ _ => BelowKernel call) ⟨ms,∅⟩ m₁ p m' :=
    Runs.of_foldlM lowCalls (fun call hc _ _ => (by decide : ∀ c ∈ lowCalls, BelowKernel c) call hc)
      .refl hrun
  obtain ⟨kernel,kroot,booted⟩ := bootMachine_booted (n := 64) (by decide) (by decide)
  exact ⟨ms,m₁,p,m',created,run,hentry,
    (kernel_entries_unchanged _ kernel kroot booted ∅ ms m₁ created p m' run).2⟩

def kernelCalls : List Call :=
  [.mmap 0xffffffff80200000 0x1000 3 0x32 0 0, .munmap 0xffffffff80200000 0x1000]

/-- The entry is gone from the table of the process, and from that of the kernel. -/
theorem munmap_clears_kernel_entry : ∃ ms m₁ p m' kernel,
    MemorySet.newUser (bootMachine 64) = .ok ms m₁ ∧
    Runs Call.exec (fun _ _ _ => True) ⟨ms, ∅⟩ m₁ p m' ∧
    m'.kernelSpace = some kernel ∧ checkKernelVa 0xffffffff80200000 = true ∧
    entryAt m₁ (ms.pt.rootPaddr / 4096) 0xffffffff80200000 ≠ none ∧
    entryAt m' (p.vm.pt.rootPaddr / 4096) 0xffffffff80200000 = none ∧
    entryAt m' (kernel.rootPaddr / 4096) 0xffffffff80200000 = none := by
  have computed : returnsWith MemorySet.newUser (bootMachine 64) (fun ms m₁ =>
      (entryAt m₁ (ms.pt.rootPaddr / 4096) 0xffffffff80200000 != none) &&
      returnsWith (kernelCalls.foldlM (fun p call => Call.exec call p) ⟨ms,∅⟩) m₁ fun p m' =>
        (entryAt m' (p.vm.pt.rootPaddr / 4096) 0xffffffff80200000 == none) &&
        m'.kernelSpace.any fun kernel =>
          entryAt m' (kernel.rootPaddr / 4096) 0xffffffff80200000 == none) = true := by
    decide +kernel
  obtain ⟨ms,m₁,created,computed⟩ := returnsWith_elim computed
  rw [Bool.and_eq_true,bne_iff_ne] at computed
  obtain ⟨hbefore,computed⟩ := computed
  obtain ⟨p,m',hrun,computed⟩ := returnsWith_elim computed
  rw [Bool.and_eq_true,beq_iff_eq,Option.any_eq_true] at computed
  obtain ⟨hafter,kernel,hkernel,hgone⟩ := computed
  exact ⟨ms,m₁,p,m',kernel,created,Runs.of_foldlM kernelCalls (fun _ _ _ _ => trivial) .refl hrun,
    hkernel,by decide,hbefore,hafter,beq_iff_eq.mp hgone⟩

end DuckOs.KernelEntries
