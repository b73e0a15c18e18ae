import DuckOs.ElfLoaderModel
import DuckOs.UnmapRounds

namespace DuckOs.ProgramBreak
open ExecutionRules KernelMachine VirtMemoryModel MemorySetModel
open MemorySyscalls ElfLoaderModel BootMachine SegmentViews SegmentUnmap SpaceOperations
open SyscallSteps OrderedMaps

def HeapCovers (areas : VmaRange) (va : ℕ) : Prop :=
  ∃ (k : ℕ) (vma : VirtMemoryAddr), areas[k]? = some vma ∧ vma.vmaType = .userHeap ∧
    vma.startVaddr ≤ va ∧ va < vma.endVaddr

def HeapEndsAt (areas : VmaRange) (limit : ℕ) : Prop :=
  ∃ (k : ℕ) (vma : VirtMemoryAddr), areas[k]? = some vma ∧ vma.vmaType = .userHeap ∧
    vma.endVaddr = limit

/-- After a call for `addr` the break is `addr`, the heap ends at the page boundary above it
and has let go of what lay beyond. -/
structure BreakSet (p p' : Process) (m' : Machine) (addr : ℕ) : Prop where
  reported : sysBrk p' 0 m' = .ok (p', .ok addr) m'
  ends : HeapEndsAt p'.vm.areas (pageUp addr)
  released : ∀ va, pageUp addr ≤ va → HeapCovers p.vm.areas va → ¬ HeapCovers p'.vm.areas va

def grownSegment (areas : VmaRange) (heapEnd : ℕ) : Option ℕ :=
  areas.toList.foldl (fun found e => if e.2.endVaddr = heapEnd then some e.1 else found) none

/-- The call does not shrink, no heap segment lies beyond the new break, and one will end at
the page boundary: the one that grows if `addr` is that boundary, or one that does already. -/
structure BreakInStep (vm : MemorySet) (addr : ℕ) : Prop where
  forward : vm.heapEnd ≤ addr
  below : ∀ va, pageUp addr ≤ va → ¬ HeapCovers vm.areas va
  ends : ∃ (k : ℕ) (vma : VirtMemoryAddr), vm.areas[k]? = some vma ∧ vma.vmaType = .userHeap ∧
    (if vm.heapEnd < addr ∧ grownSegment vm.areas vm.heapEnd = some k then addr
      else vma.endVaddr) = pageUp addr

theorem le_pageUp (va : ℕ) : va ≤ pageUp va := by
  unfold pageUp
  omega

theorem sysBrk_zero (p : Process) (m : Machine) (addr : ℕ) :
    sysBrk p 0 m = .ok (p, .ok addr) m ↔ p.vm.heapEnd = addr := by
  have hzero : sysBrk p 0 m = .ok (p, .ok p.vm.heapEnd) m := rfl
  constructor
  · intro h
    cases h
    rfl
  · rintro rfl
    rfl

section Growth

variable {m : Machine}

theorem expandLoop_key (first last : ℕ) : ∀ (l : List (ℕ × VirtMemoryAddr)) (heapVm : Option ℕ),
    Holds (VmaRange.expandLoop first last heapVm l) m
      (fun r _ => ∀ found, r = .ok found →
        found = l.foldl (fun found e => if e.2.endVaddr = first then some e.1 else found) heapVm)
      (fun _ _ => True) := by
  intro l
  induction l with
  | nil =>
    intro heapVm
    refine holds_pure fun found hf => ?_
    cases hf
    rfl
  | cons e l ih =>
    intro heapVm
    obtain ⟨key,vma⟩ := e
    unfold VmaRange.expandLoop
    rw [List.foldl_cons]
    by_cases hend : vma.endVaddr = first
    · rw [if_pos hend,if_pos hend]
      exact ih (some key)
    · rw [if_neg hend,if_neg hend]
      refine (isOverlap_holds vma first last).orAny.bind ?_
      rintro overlap _ ⟨-,rfl,-⟩
      cases overlap with
      | true => exact holds_pure fun found hf => (by cases hf)
      | false => exact ih heapVm

theorem expand_result (ms : MemorySet) (first last : ℕ) :
    Holds (ms.expand first last) m
      (fun r m' => m' = m ∧ match r.2 with
        | .error _ => r.1 = ms
        | .ok _ => ∃ key vma, grownSegment ms.areas first = some key ∧
            ms.areas[key]? = some vma ∧ vma.endVaddr = first ∧
            r.1 = { ms with areas := ms.areas.insert key (vma.expand last) })
      (fun _ _ => True) := by
  unfold MemorySet.expand VmaRange.expand
  simp only [bind_assoc]
  refine ((expandLoop_holds first last ms.areas.toList none).and
    (expandLoop_key first last ms.areas.toList none)).orAny.bind ?_
  rintro found m' ⟨⟨rfl,hfrom⟩,hkey⟩
  match found with
  | .error e => exact holds_pure ⟨rfl,rfl⟩
  | .ok none => exact holds_pure ⟨rfl,rfl⟩
  | .ok (some key) =>
    obtain ⟨hlast,-⟩ := hfrom key rfl
    rcases hlast with hnone | ⟨vma,hmem,hend⟩
    · cases hnone
    have hk := mem_toList.mp hmem
    dsimp only at hk ⊢
    rw [hk]
    exact holds_pure ⟨rfl,key,vma,(hkey _ rfl).symm,hk,hend,rfl⟩

end Growth

section Grown

variable {areas : VmaRange} {key first last : ℕ} {vma : VirtMemoryAddr}

theorem heapCovers_grown (hk : areas[key]? = some vma) (hend : vma.endVaddr ≤ last) {va : ℕ}
    (hva : last ≤ va) : HeapCovers (areas.insert key (vma.expand last)) va ↔
      HeapCovers areas va := by
  constructor
  · rintro ⟨k,v,hv,hheap,hstart,hlimit⟩
    rw [getElem?_insert] at hv
    by_cases hkey : k = key
    · rw [if_pos hkey] at hv
      cases hv
      exact (Nat.not_lt.mpr hva hlimit).elim
    · rw [if_neg hkey] at hv
      exact ⟨k,v,hv,hheap,hstart,hlimit⟩
  · rintro ⟨k,v,hv,hheap,hstart,hlimit⟩
    refine ⟨k,v,?_,hheap,hstart,hlimit⟩
    rw [getElem?_insert,if_neg ?_]
    · exact hv
    · rintro rfl
      rw [hk] at hv
      cases hv
      omega

theorem heapEndsAt_grown (hk : areas[key]? = some vma) (limit : ℕ) :
    HeapEndsAt (areas.insert key (vma.expand last)) limit ↔
      ∃ (k : ℕ) (v : VirtMemoryAddr), areas[k]? = some v ∧ v.vmaType = .userHeap ∧
        (if key = k then last else v.endVaddr) = limit := by
  constructor
  · rintro ⟨k,v,hv,hheap,hlimit⟩
    rw [getElem?_insert] at hv
    by_cases hkey : k = key
    · rw [if_pos hkey] at hv
      cases hv
      refine ⟨key,vma,hk,hheap,?_⟩
      rw [if_pos rfl]
      exact hlimit
    · rw [if_neg hkey] at hv
      refine ⟨k,v,hv,hheap,?_⟩
      rw [if_neg (Ne.symm hkey)]
      exact hlimit
  · rintro ⟨k,v,hv,hheap,hlimit⟩
    by_cases hkey : key = k
    · subst hkey
      rw [hk] at hv
      cases hv
      rw [if_pos rfl] at hlimit
      exact ⟨key,vma.expand last,by rw [getElem?_insert,if_pos rfl],hheap,hlimit⟩
    · rw [if_neg hkey] at hlimit
      exact ⟨k,v,by rw [getElem?_insert,if_neg (Ne.symm hkey),hv],hheap,hlimit⟩

end Grown

section Break

variable {p : Process} {m m' : Machine} {addr : ℕ}

theorem released_iff {areas areas' : VmaRange} {limit : ℕ}
    (same : ∀ va, limit ≤ va → (HeapCovers areas' va ↔ HeapCovers areas va)) :
    (∀ va, limit ≤ va → HeapCovers areas va → ¬ HeapCovers areas' va) ↔
      ∀ va, limit ≤ va → ¬ HeapCovers areas va :=
  ⟨fun h va hva hc => h va hva hc ((same va hva).mpr hc),fun h va hva hc => (h va hva hc).elim⟩

theorem breakSet_grown (hlt : p.vm.heapEnd < addr) {key : ℕ} {vma : VirtMemoryAddr}
    (hgrown : grownSegment p.vm.areas p.vm.heapEnd = some key)
    (hk : p.vm.areas[key]? = some vma) (hend : vma.endVaddr = p.vm.heapEnd) :
    BreakSet p { p with vm := { p.vm with
      areas := p.vm.areas.insert key (vma.expand addr), heapEnd := addr } } m' addr ↔
      BreakInStep p.vm addr := by
  have hup := le_pageUp addr
  have same : ∀ va, pageUp addr ≤ va → (HeapCovers (p.vm.areas.insert key (vma.expand addr)) va ↔
      HeapCovers p.vm.areas va) := fun va hva => heapCovers_grown hk (by omega) (by omega)
  have ends : HeapEndsAt (p.vm.areas.insert key (vma.expand addr)) (pageUp addr) ↔ _ :=
    heapEndsAt_grown hk (pageUp addr)
  have hif : ∀ (k : ℕ) (v : VirtMemoryAddr),
      (if p.vm.heapEnd < addr ∧ grownSegment p.vm.areas p.vm.heapEnd = some k then addr
        else v.endVaddr) = if key = k then addr else v.endVaddr := by
    intro k v
    simp only [hlt,hgrown,true_and,Option.some.injEq]
  constructor
  · rintro ⟨-,hends,hreleased⟩
    refine ⟨hlt.le,(released_iff same).mp hreleased,?_⟩
    obtain ⟨k,v,hv,hheap,hlimit⟩ := ends.mp hends
    exact ⟨k,v,hv,hheap,(hif k v).trans hlimit⟩
  · rintro ⟨-,hbelow,k,v,hv,hheap,hlimit⟩
    exact ⟨(sysBrk_zero _ _ _).mpr rfl,ends.mpr ⟨k,v,hv,hheap,(hif k v).symm.trans hlimit⟩,
      (released_iff same).mpr hbelow⟩

theorem breakSet_same (heq : p.vm.heapEnd = addr) :
    BreakSet p p m' addr ↔ BreakInStep p.vm addr := by
  have hif : ∀ (k : ℕ) (v : VirtMemoryAddr),
      (if p.vm.heapEnd < addr ∧ grownSegment p.vm.areas p.vm.heapEnd = some k then addr
        else v.endVaddr) = v.endVaddr :=
    fun k v => if_neg fun hc => absurd hc.1 (by omega)
  have same : ∀ va, pageUp addr ≤ va → (HeapCovers p.vm.areas va ↔ HeapCovers p.vm.areas va) :=
    fun _ _ => Iff.rfl
  constructor
  · rintro ⟨-,⟨k,v,hv,hheap,hlimit⟩,hreleased⟩
    exact ⟨heq.le,(released_iff same).mp hreleased,k,v,hv,hheap,(hif k v).trans hlimit⟩
  · rintro ⟨-,hbelow,k,v,hv,hheap,hlimit⟩
    exact ⟨(sysBrk_zero _ _ _).mpr heq,⟨k,v,hv,hheap,(hif k v).symm.trans hlimit⟩,
      (released_iff same).mpr hbelow⟩

theorem not_breakSet_shrunk {p' : Process} (hlt : addr < p.vm.heapEnd)
    (hsame : p'.vm.heapEnd = p.vm.heapEnd) :
    BreakSet p p' m' addr ↔ BreakInStep p.vm addr := by
  constructor
  · rintro ⟨hreported,-,-⟩
    have := (sysBrk_zero _ _ _).mp hreported
    omega
  · rintro ⟨hforward,-,-⟩
    omega

/-- In every state: a call that returns `Ok` sets the break exactly if it is in step, and one
that returns an error changes nothing. -/
theorem brk_sets_break_iff (p : Process) (m : Machine) (addr : ℕ) (hne : addr ≠ 0) :
    Holds (sysBrk p addr) m
      (fun r m' => match r.2 with
        | .ok _ => BreakSet p r.1 m' addr ↔ BreakInStep p.vm addr
        | .error _ => r.1 = p ∧ m' = m)
      (fun _ _ => True) := by
  unfold sysBrk
  rw [if_neg hne]
  split
  · rename_i hlt
    refine (expand_result p.vm p.vm.heapEnd addr).bind ?_
    rintro ⟨vm,e⟩ m' ⟨rfl,hr⟩
    match e with
    | .error e =>
      subst hr
      exact holds_pure ⟨rfl,rfl⟩
    | .ok b =>
      obtain ⟨key,vma,hgrown,hk,hend,rfl⟩ := hr
      refine Holds.bind (R := fun _ _ => True) (holds_trivial _ _) ?_
      rintro - m'' -
      exact holds_pure (breakSet_grown hlt hgrown hk hend)
  · split_ifs with hlt
    · unfold MemorySet.munmap
      simp only [bind_assoc,pure_bind]
      refine Holds.bind (R := fun _ _ => True) (holds_trivial _ _) ?_
      rintro areas m' -
      refine Holds.bind (R := fun _ _ => True) (holds_trivial _ _) ?_
      rintro - m'' -
      exact holds_pure (not_breakSet_shrunk hlt rfl)
    · refine Holds.bind (R := fun _ _ => True) (holds_trivial _ _) ?_
      rintro - m' -
      exact holds_pure (breakSet_same (by omega))

/-- A process with the heap of a program that ends at `heapStart`. -/
def heapProcess (heapStart : ℕ) : Kernel Process := do
  let vm ← MemorySet.newUser
  let vm ← mapHeap vm heapStart
  pure ⟨vm, ∅⟩

/-- The first growth of a heap by two pages. -/
theorem brk_sets_break_grown : ∃ p m p' m', heapProcess 0x10000 (bootMachine 64) = .ok p m ∧
    (0x12000 : ℕ) ≠ 0 ∧ BreakInStep p.vm 0x12000 ∧ sysBrk p 0x12000 m = .ok (p', .ok 0) m' ∧
    BreakSet p p' m' 0x12000 := by
  have computed : returnsWith (heapProcess 0x10000) (bootMachine 64) (fun p m =>
      (p.vm.heapEnd == 0x10000) && (grownSegment p.vm.areas 0x10000 == some 0x10000) &&
      (p.vm.areas[0x10000]?.any fun vma => vma.vmaType == .userHeap) &&
      (p.vm.areas.toList.all fun e => e.2.endVaddr ≤ 0x12000) &&
      returnsWith (sysBrk p 0x12000) m fun r _ => r.2 == .ok 0) = true := by
    decide +kernel
  obtain ⟨p,m,created,computed⟩ := returnsWith_elim computed
  simp only [Bool.and_eq_true,beq_iff_eq,Option.any_eq_true] at computed
  obtain ⟨⟨⟨⟨hend,hgrown⟩,vma,hk,hheap⟩,hbelow⟩,computed⟩ := computed
  obtain ⟨⟨p',r⟩,m',grows,hr⟩ := returnsWith_elim computed
  obtain rfl := beq_iff_eq.mp hr
  have inStep : BreakInStep p.vm 0x12000 := by
    refine ⟨by omega,?_,0x10000,vma,hk,hheap,?_⟩
    · rintro va hva ⟨k,v,hv,-,-,hlimit⟩
      have hle := of_decide_eq_true (all_toList hbelow hv)
      change 0x12000 ≤ va at hva
      change v.endVaddr ≤ 0x12000 at hle
      omega
    · rw [hend,hgrown,if_pos (by decide)]
      rfl
  have hset := (brk_sets_break_iff p m 0x12000 (by decide)).of_ok grows
  exact ⟨p,m,p',m',created,by decide,inStep,grows,hset.mpr inStep⟩

/-- Two pages are asked for and the second is touched. -/
def grownHeap : Kernel Process :=
  heapProcess 0x10000 >>= fun p => [Call.brk 0x12000, .fault 0x11000].foldlM (fun p c => c.exec p) p

/-- The touched page is given back: the break does not move. -/
theorem brk_shrink_keeps_break : ∃ p m p' m',
    grownHeap (bootMachine 64) = .ok p m ∧ sysBrk p 0x11000 m = .ok (p', .ok 0) m' ∧
    sysBrk p' 0 m' = .ok (p', .ok 0x12000) m' ∧ ¬ BreakSet p p' m' 0x11000 := by
  have computed : returnsWith grownHeap (bootMachine 64) (fun p m =>
      returnsWith (sysBrk p 0x11000) m fun r _ =>
        r.2 == .ok 0 && r.1.vm.heapEnd == 0x12000) = true := by
    decide +kernel
  obtain ⟨p,m,created,computed⟩ := returnsWith_elim computed
  obtain ⟨⟨p',r⟩,m',shrinks,computed⟩ := returnsWith_elim computed
  simp only [Bool.and_eq_true,beq_iff_eq] at computed
  obtain ⟨rfl,hend⟩ := computed
  refine ⟨p,m,p',m',created,shrinks,(sysBrk_zero _ _ _).mpr hend,?_⟩
  rintro ⟨hreported,-,-⟩
  have hbreak := (sysBrk_zero _ _ _).mp hreported
  omega

end Break

section Start
open AddressModel PathModel PageInstalls

/-- The segments of the program end at or below `top`. -/
def Above (baseAddr top : ℕ) (phs : List ProgramHeader) : Prop :=
  ∀ ph ∈ phs, ph.phType = some .load →
    pageUp (wrappingAdd (wrappingAdd ph.virtualAddr baseAddr) ph.memSize) ≤ top

theorem mapElfAt_above (elf : ElfFile) (cache : Option ℕ) (vm : MemorySet) (baseAddr : ℕ) :
    Yields (mapElfAt elf cache vm baseAddr) fun r => Above baseAddr r.2 elf.programIter := by
  refine fun m => holds_foldlM_done (fun done (r : MemorySet × ℕ) _ => Above baseAddr r.2 done) ?_
    (fun _ h => by cases h)
  intro done ph _ r m' _ above
  refine holds_unwrap fun phType hph => ?_
  split_ifs with hother
  · refine holds_pure (List.forall_mem_append.mpr
      ⟨above,List.forall_mem_singleton.mpr fun hl => ?_⟩)
    rw [hph] at hl
    exact absurd (Option.some.inj hl) hother
  · refine (holds_trivial _ _).bind fun vm' m'' _ => (alignUp_holds _).orAny.bind ?_
    rintro _ _ ⟨rfl,rfl,-⟩
    exact holds_pure (List.forall_mem_append.mpr
      ⟨fun q hq hl => (above q hq hl).trans (le_max_left _ _),
        List.forall_mem_singleton.mpr fun _ => le_max_right _ _⟩)

/-- Whatever is in a program file, the break starts at or above all that is loaded of it. -/
theorem break_starts_above (ld : Loader) (cache : ℕ) (data : List UInt8) (vm : MemorySet)
    (args envs : List Str) : Yields (loadElf ld cache data vm args envs) fun r =>
      ∃ elf, ld.parse data = some elf ∧ Above 0 r.1.heapEnd elf.programIter := by
  refine fun m => holds_unwrap fun elf helf => ?_
  split
  · exact holds_throw trivial
  refine yields_after (fun dl : MemorySet × Option (ℕ × ℕ) =>
    (mapElfAt_above elf none dl.1 0).bind fun mapped above => yields_after fun vm' => ?_) m
  refine Yields.bind (R := fun vm' => vm'.heapEnd = mapped.2) ?_ fun vm' hend => ?_
  · exact yields_after fun vma => yields_after fun vm'' => yields_pure rfl
  · exact yields_pure ⟨elf,helf,hend ▸ above⟩

end Start

end DuckOs.ProgramBreak
