import DuckOs.UnmapRounds

namespace DuckOs.ProtectionRequests
open ExecutionRules AddressModel PermissionFlags KernelMachine PageTableModel PageTableTree
open PageModel VirtMemoryModel MemorySetModel MemorySyscalls BootMachine FrameOwnership
open SyscallSteps UnmapRounds OrderedMaps

structure Grants (flags : PTEFlags) (prot : MmapProt) : Prop where
  read : contains flags PTEFlags.R = contains prot MmapProt.PROT_READ
  write : contains flags PTEFlags.W = contains prot MmapProt.PROT_WRITE
  exec : contains flags PTEFlags.X = contains prot MmapProt.PROT_EXEC
  user : prot ≠ 0 → contains flags PTEFlags.U = true

instance (flags : PTEFlags) (prot : MmapProt) : Decidable (Grants flags prot) :=
  decidable_of_iff
    (contains flags PTEFlags.R = contains prot MmapProt.PROT_READ ∧
      contains flags PTEFlags.W = contains prot MmapProt.PROT_WRITE ∧
      contains flags PTEFlags.X = contains prot MmapProt.PROT_EXEC ∧
      (prot ≠ 0 → contains flags PTEFlags.U = true))
    ⟨fun ⟨r, w, x, u⟩ => ⟨r, w, x, u⟩, fun ⟨r, w, x, u⟩ => ⟨r, w, x, u⟩⟩

def faultFlags (vma : VirtMemoryAddr) : Option PTEFlags :=
  match vma.pageFaultHandler with
  | some .uStack => some (PTEFlags.W ||| PTEFlags.R ||| PTEFlags.U)
  | some .uHeap => some (PTEFlags.W ||| PTEFlags.R ||| PTEFlags.U ||| PTEFlags.X)
  | some .mmap => some (pteFlagsFrom vma.mapPermission)
  | some .cow => none
  | none => none

/-- The resident pages of the range are mapped as asked for, and faults will map others so. -/
structure Protected (ms : MemorySet) (m : Machine) (addr len : ℕ) (prot : MmapProt) : Prop where
  entries : ∀ (k : ℕ) (vma : VirtMemoryAddr) (v : ℕ) (page : Page), ms.areas[k]? = some vma →
    vma.pma.pageManager[v]? = some page → addr ≤ v * 4096 → v * 4096 < addr + len →
    ∃ w, pteAt m (ms.pt.rootPaddr / 4096) v = some w ∧ Grants (PageTableEntry.flags w) prot
  faults : ∀ (va k : ℕ) (vma : VirtMemoryAddr) (flags : PTEFlags), addr ≤ va → va < addr + len →
    ms.findVmByVaddr va = some (k, vma) → faultFlags vma = some flags → Grants flags prot

/-- Every page outside the range has its entry, its contents and its segment as before. -/
structure OutsideKept (ms ms' : MemorySet) (m m' : Machine) (addr len : ℕ) : Prop where
  entry : ∀ va, ¬ (addr ≤ va ∧ va < addr + len) →
    entryAt m' (ms'.pt.rootPaddr / 4096) va = entryAt m (ms.pt.rootPaddr / 4096) va
  contents : ∀ va w, ¬ (addr ≤ va ∧ va < addr + len) →
    entryAt m (ms.pt.rootPaddr / 4096) va = some w →
    m'.ram (PageTableEntry.ppn w) = m.ram (PageTableEntry.ppn w)
  segment : ∀ va, ¬ (addr ≤ va ∧ va < addr + len) →
    ms'.findVmByVaddr va = ms.findVmByVaddr va

theorem sysMprotect_returns (p : Process) (m : Machine) {addr len : ℕ} {prot : BitVec 32}
    {flags : MmapProt} (haddr : vaddrIsAlign addr = true)
    (hprot : mmapProtFromBits prot = some flags) :
    sysMprotect p addr len prot m = .ok (p, .ok 0) m := by
  unfold sysMprotect
  rw [haddr,Bool.not_true,if_neg Bool.false_ne_true,hprot]
  dsimp only
  rw [if_pos (contains_protNone flags)]
  rfl

/-- In every state: the call returns `Ok`, and the range then has the protection asked for,
with nothing changed outside it, exactly if it had that protection before. -/
theorem mprotect_applies_iff (p : Process) (m : Machine) (addr len : ℕ) (prot : BitVec 32)
    (flags : MmapProt) (haddr : vaddrIsAlign addr = true)
    (hprot : mmapProtFromBits prot = some flags) :
    ∃ p' m', sysMprotect p addr len prot m = .ok (p', .ok 0) m' ∧
      (Protected p'.vm m' addr len flags ∧ OutsideKept p.vm p'.vm m m' addr len ↔
        Protected p.vm m addr len flags) := by
  refine ⟨p,m,sysMprotect_returns p m haddr hprot,fun h => h.1,fun h => ⟨h,?_⟩⟩
  exact ⟨fun _ _ => rfl,fun _ _ _ _ => rfl,fun _ _ => rfl⟩

def writablePage : List Call := [.mmap 0x10000 0x1000 3 0x32 0 0, .fault 0x10000]

def protectedSegments (ms : MemorySet) (m : Machine) (prot : MmapProt) : Bool :=
  ms.areas.toList.all fun e =>
    (e.2.pma.pageManager.toList.all fun q =>
      (pteAt m (ms.pt.rootPaddr / 4096) q.1).any fun w =>
        decide (Grants (PageTableEntry.flags w) prot)) &&
    ((faultFlags e.2).all fun flags => decide (Grants flags prot))

theorem protected_of_segments {ms : MemorySet} {m : Machine} {prot : MmapProt}
    (h : protectedSegments ms m prot = true) (addr len : ℕ) : Protected ms m addr len prot := by
  have hall : ∀ (k : ℕ) (vma : VirtMemoryAddr), ms.areas[k]? = some vma → _ :=
    fun k vma hk => all_toList h hk
  simp only [Bool.and_eq_true] at hall
  refine ⟨?_,?_⟩
  · intro k vma v page hk hv _ _
    have hentry := all_toList (hall k vma hk).1 hv
    obtain ⟨w,hw,hg⟩ := (Option.any_eq_true _ _).mp hentry
    exact ⟨w,hw,of_decide_eq_true hg⟩
  · intro va k vma flags _ _ hfound hflags
    have hfault := (hall k vma (findVm_some hfound).1).2
    rw [hflags] at hfault
    exact of_decide_eq_true hfault

/-- Asking again for what the page has. -/
theorem mprotect_applies_same : ∃ ms m₁ p m p' m',
    MemorySet.newUser (bootMachine 64) = .ok ms m₁ ∧
    Runs Call.exec (fun _ _ _ => True) ⟨ms, ∅⟩ m₁ p m ∧
    vaddrIsAlign 0x10000 = true ∧ mmapProtFromBits 3 = some 3 ∧
    sysMprotect p 0x10000 0x1000 3 m = .ok (p', .ok 0) m' ∧
    (entryAt m' (p'.vm.pt.rootPaddr / 4096) 0x10000).isSome = true ∧
    Protected p'.vm m' 0x10000 0x1000 3 ∧ OutsideKept p.vm p'.vm m m' 0x10000 0x1000 := by
  have computed : fromBoot 64 writablePage (fun p m =>
      (entryAt m (p.vm.pt.rootPaddr / 4096) 0x10000).isSome &&
        protectedSegments p.vm m 3) = true := by
    decide +kernel
  obtain ⟨-,-,ms,m₁,p,m,created,run,-,-,-,computed⟩ :=
    fromBoot_elim (by decide) computed
  rw [Bool.and_eq_true] at computed
  obtain ⟨hentry,hsegments⟩ := computed
  have halign : vaddrIsAlign 0x10000 = true := by decide
  have hvalid : mmapProtFromBits 3 = some 3 := by decide
  obtain ⟨p',m',returns,hiff⟩ := mprotect_applies_iff p m 0x10000 0x1000 3 3 halign hvalid
  obtain ⟨hprotected,houtside⟩ := hiff.mpr (protected_of_segments hsegments 0x10000 0x1000)
  have hsame := returns.symm.trans (sysMprotect_returns p m halign hvalid)
  cases hsame
  exact ⟨ms,m₁,p,m,p,m,created,run,halign,hvalid,returns,hentry,hprotected,houtside⟩

/-- The page is to become read-only: the call returns `Ok` and it stays writable. -/
theorem mprotect_keeps_write : ∃ ms m₁ p m p' m',
    MemorySet.newUser (bootMachine 64) = .ok ms m₁ ∧
    Runs Call.exec (fun _ _ _ => True) ⟨ms, ∅⟩ m₁ p m ∧
    sysMprotect p 0x10000 0x1000 1 m = .ok (p', .ok 0) m' ∧
    (∃ w, entryAt m' (p'.vm.pt.rootPaddr / 4096) 0x10000 = some w ∧
      contains (PageTableEntry.flags w) PTEFlags.W = true) ∧
    ¬ Protected p'.vm m' 0x10000 0x1000 1 := by
  have computed : fromBoot 64 writablePage (fun p m =>
      ((entryAt m (p.vm.pt.rootPaddr / 4096) 0x10000).any fun w =>
        contains (PageTableEntry.flags w) PTEFlags.W) &&
      ((p.vm.findVmByVaddr 0x10000).any fun e =>
        faultFlags e.2 == some (pteFlagsFrom (mmapPermission 3)))) = true := by
    decide +kernel
  obtain ⟨-,-,ms,m₁,p,m,created,run,-,-,-,computed⟩ :=
    fromBoot_elim (by decide) computed
  rw [Bool.and_eq_true,Option.any_eq_true,Option.any_eq_true] at computed
  obtain ⟨hentry,⟨k,vma⟩,hfound,hflags⟩ := computed
  refine ⟨ms,m₁,p,m,p,m,created,run,sysMprotect_returns p m (by decide)
    (by decide : mmapProtFromBits 1 = some 1),hentry,?_⟩
  rintro ⟨-,hfaults⟩
  have hg := hfaults 0x10000 k vma _ (by decide) (by decide) hfound (beq_iff_eq.mp hflags)
  revert hg
  decide

end DuckOs.ProtectionRequests
