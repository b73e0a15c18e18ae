import DuckOs.LazyForks

namespace DuckOs.CopyOnWrite
open ExecutionRules AddressModel PermissionFlags KernelMachine PageTableModel PageModel Function
open PageTableEntries PageTableOperations PageTableSharing FrameOwnership
open VirtMemoryModel SegmentViews MemorySetModel TableFamilies CopyFaults LazyForks
open SyscallSteps (Call Booted bootMachine_booted)
open UnmapRounds (fromBoot fromBoot_elim)
open BootMachine (bootMachine)
open OrderedMaps

/-- A process and what it should read: its own last store, or what it got from its parent. -/
structure Process where
  vm : MemorySet
  expected : ℕ → UInt8

variable {q p : Process} {v w key r kroot va pte : ℕ} {byte : UInt8} {vma : VirtMemoryAddr}
  {page : Page} {vm' vm : MemorySet} {m₀ m m' : Machine} {ext : ℕ → ℕ} {rest : List Process}

def Process.root (p : Process) : ℕ := rootFrame p.vm.pt

def Process.entry (p : Process) (va : ℕ) : Kernel (Option ℕ) :=
  if va ≤ userUpperLimit then entryVia p.vm.pt va else pure none

def Process.put (p : Process) (pte va : ℕ) (byte : UInt8) : Kernel Process := do
  writeFrame (PageTableEntry.ppn pte) (va % 4096) [byte]
  pure { p with expected := update p.expected va byte }

def Process.tryPut (p : Process) (va : ℕ) (byte : UInt8) (otherwise : ℕ → Kernel Process) :
    Kernel Process := do
  match ← p.entry va with
  | none => pure p
  | some pte => if isWritable pte then p.put pte va byte else otherwise pte

/-- A store to a shared page is one that the process has made, whatever the fault handler does; it
is tried again behind the fault. Nothing is stored to other read-only pages. -/
def Process.store (p : Process) (va : ℕ) (byte : UInt8) : Kernel Process :=
  p.tryPut va byte fun pte =>
    if isShared pte then do
      let r ← MemorySet.handlePageFault p.vm va
      let p : Process := ⟨r.1, update p.expected va byte⟩
      p.tryPut va byte fun _ => pure p
    else pure p

structure World where
  parent : Process
  children : List Process

def World.all (w : World) : List Process := w.parent :: w.children

inductive CowOp where
  | fork
  | write (who : Option ℕ) (va : ℕ) (byte : UInt8)

/-- `who` is the parent or the number of a child. -/
def CowOp.exec : CowOp → World → Kernel World
  | .fork, w => do
    let r ← MemorySet.fromUserLazily w.parent.vm
    pure ⟨{ w.parent with vm := r.1 }, ⟨r.2, w.parent.expected⟩ :: w.children⟩
  | .write none va byte, w => do
    let p ← w.parent.store va byte
    pure { w with parent := p }
  | .write (some i) va byte, w =>
    match w.children[i]? with
    | none => pure w
    | some c => do
      let c ← c.store va byte
      pure { w with children := w.children.set i c }

def World.process (w : World) : Option ℕ → Option Process
  | none => some w.parent
  | some i => w.children[i]?

/-- The page is mapped, and it is writable or shared. -/
def MayStore (m : Machine) (p : Process) (va : ℕ) : Prop :=
  va ≤ userUpperLimit ∧ ∃ pte, pteAt m p.root (va / 4096) = some pte ∧
    (isWritable pte = true ∨ isShared pte = true)

def ReadsByte (m : Machine) (p : Process) (va : ℕ) (byte : UInt8) : Prop :=
  ∃ pte, pteAt m p.root (va / 4096) = some pte ∧
    m.ram (PageTableEntry.ppn pte) (va % 4096) = byte

/-- A store to a page that allows it is carried out. -/
def CowOp.CarriedOut : CowOp → World → Machine → World → Machine → Prop
  | .fork, _, _, _, _ => True
  | .write who va byte, w, m, w', m' => ∀ p ∈ w.process who, MayStore m p va →
    ∃ p' ∈ w'.process who, ReadsByte m' p' va byte

def RightAt (m : Machine) (vm : MemorySet) (va : ℕ) : Prop :=
  ∀ pte, pteAt m (rootFrame vm.pt) (va / 4096) = some pte → isShared pte = true →
    ∀ (key : ℕ) (vma : VirtMemoryAddr), vm.areas[key]? = some vma →
      va / 4096 ∈ segmentPages vma → MemorySet.findVmByVaddr vm va = some (key, vma)

def RightSegment : CowOp → World → Machine → Prop
  | .write none va _, w, m => RightAt m w.parent.vm va
  | _, _, _ => True

section Invariant

variable {procs : List Process}

def heldBy (procs : List Process) (f : ℕ) : ℕ := (procs.map fun q => spaceHeld q.vm f).sum

theorem heldBy_cons (p : Process) (rest : List Process) (f : ℕ) :
    heldBy (p :: rest) f = spaceHeld p.vm f + heldBy rest f := List.sum_cons

/-- Every page of the table lies in a segment. -/
def Covered (m : Machine) (vm : MemorySet) : Prop :=
  ∀ v w, UserPage v → pteAt m (rootFrame vm.pt) v = some w → ∃ (key : ℕ) (vma : VirtMemoryAddr),
    vm.areas[key]? = some vma ∧ vma.startVaddr ≤ v * 4096 ∧ (v + 1) * 4096 ≤ vma.endVaddr

theorem Covered.of_pte (c : Covered m vm)
    (h : pteAt m' (rootFrame vm.pt) = pteAt m (rootFrame vm.pt)) : Covered m' vm := by
  unfold Covered
  rw [h]
  exact c

theorem Covered.found (c : Covered m vm) (hva : va ≤ userUpperLimit)
    (hw : pteAt m (rootFrame vm.pt) (va / 4096) = some pte) :
    ∃ key vma, MemorySet.findVmByVaddr vm va = some (key, vma) := by
  obtain ⟨key,vma,hk,hstart,hend⟩ := c _ _ (userPage_of_le hva) hw
  have hin : vma.isContain va = true :=
    Bool.and_eq_true_iff.mpr ⟨decide_eq_true (by omega),decide_eq_true (by omega)⟩
  have hsome : (MemorySet.findVmByVaddr vm va).isSome :=
    List.find?_isSome.mpr ⟨_,mem_toList.mpr hk,hin⟩
  obtain ⟨⟨key',vma'⟩,h⟩ := Option.isSome_iff_exists.mp hsome
  exact ⟨key',vma',h⟩

theorem Covered.mem (c : Covered m vm) (hv : UserPage v)
    (hw : pteAt m (rootFrame vm.pt) v = some w) : v ∈ pagesOf vm.areas := by
  obtain ⟨key,vma,hk,hstart,hend⟩ := c v w hv hw
  refine List.mem_flatMap.mpr ⟨_,mem_toList.mpr hk,List.mem_range'_1.mpr ?_⟩
  dsimp only
  omega

def Alone (roots : List ℕ) (m : Machine) : Prop :=
  ∀ r ∈ roots, ∀ s ∈ roots, ∀ v u w w', UserPage v → UserPage u → pteAt m r v = some w →
    isWritable w = true → pteAt m s u = some w' →
    PageTableEntry.ppn w' = PageTableEntry.ppn w → s = r ∧ u = v

structure KeptApart (m₀ : Machine) (kroot : ℕ) (ext : ℕ → ℕ) (procs : List Process) (m : Machine) :
    Prop where
  family : Family m₀ kroot (procs.map (·.vm.pt)) (heldBy procs) ext m
  keeps : ∀ p ∈ procs, Keeps m p.vm
  covered : ∀ p ∈ procs, Covered m p.vm
  alone : Alone (procs.map Process.root) m
  reads : ∀ p ∈ procs, ∀ va ≤ userUpperLimit, ∀ w, pteAt m p.root (va / 4096) = some w →
    m.ram (PageTableEntry.ppn w) (va % 4096) = p.expected va

theorem KeptApart.perm {procs' : List Process} (k : KeptApart m₀ kroot ext procs m)
    (h : procs.Perm procs') : KeptApart m₀ kroot ext procs' m := by
  have hmem : ∀ p, p ∈ procs' → p ∈ procs := fun p hp => h.mem_iff.mpr hp
  refine ⟨(k.family.perm (h.map _)).held_congr fun f => (h.map _).sum_eq.ge,
    fun p hp => k.keeps p (hmem p hp),fun p hp => k.covered p (hmem p hp),fun r hr s hs => ?_,
    fun p hp => k.reads p (hmem p hp)⟩
  exact k.alone r ((h.map _).mem_iff.mpr hr) s ((h.map _).mem_iff.mpr hs)

theorem KeptApart.held (k : KeptApart m₀ kroot ext procs m) (hq : q ∈ procs) (hv : UserPage v)
    (hw : pteAt m q.root v = some w) : 0 < heldBy procs (PageTableEntry.ppn w) := by
  have hpos := ((k.keeps q hq).backed v w hv hw).held
  exact hpos.trans_le (List.single_le_sum (fun _ _ => Nat.zero_le _) _
    (List.mem_map_of_mem hq))

theorem KeptApart.root_ne (k : KeptApart m₀ kroot ext (p :: rest) m) (hq : q ∈ rest) :
    q.root ≠ p.root := by
  intro he
  have hown := (k.family.user p.vm.pt List.mem_cons_self).rootOwn
  have hother := (k.family.user q.vm.pt
    (List.mem_cons_of_mem _ (List.mem_map_of_mem hq))).rootOwn
  have hapart := (List.pairwise_cons.mp k.family.apart).1 q.vm.pt (List.mem_map_of_mem hq)
  refine hapart _ hown ?_
  unfold Process.root at he
  rwa [he] at hother

theorem entry_eq (k : KeptApart m₀ kroot ext procs m) (hp : p ∈ procs) (va : ℕ) :
    p.entry va m = .ok (if va ≤ userUpperLimit then pteAt m p.root (va / 4096) else none) m := by
  unfold Process.entry
  split_ifs with hva
  · have s := k.family.space (List.mem_map_of_mem hp)
    rw [entryVia_eq s.tree s.rootPaddr (checkUserVa_of_le hva),entryAt_user m _ hva]
    rfl
  · rfl

theorem writeBytes_one (row : ℕ → UInt8) (offset : ℕ) (byte : UInt8) :
    writeBytes row offset [byte] = update row offset byte := by
  funext i
  unfold writeBytes
  rw [List.length_singleton,update_apply]
  by_cases hi : i = offset
  · simp [hi]
  · rw [if_neg (by omega),if_neg hi]

section

variable (k : KeptApart m₀ kroot ext (p :: rest) m) (hva : va ≤ userUpperLimit)
  (hw : pteAt m p.root (va / 4096) = some pte) (hwrite : isWritable pte = true)
include k hva hw hwrite

theorem put_bytes (hq : q ∈ p :: rest) {va' : ℕ} (hva' : va' ≤ userUpperLimit)
    (hw' : pteAt m q.root (va' / 4096) = some w) :
    (setRow m (PageTableEntry.ppn pte) (update (m.ram (PageTableEntry.ppn pte))
      (va % 4096) byte)).ram (PageTableEntry.ppn w) (va' % 4096) =
      if q.root = p.root ∧ va' = va then byte else m.ram (PageTableEntry.ppn w) (va' % 4096) := by
  change update m.ram _ _ _ _ = _
  by_cases he : PageTableEntry.ppn w = PageTableEntry.ppn pte
  · have halone := k.alone _ List.mem_cons_self _ (List.mem_map_of_mem hq) _ _ pte w
      (userPage_of_le hva) (userPage_of_le hva') hw hwrite hw' he
    rw [he,update_self,update_apply]
    refine if_congr ⟨fun h => ⟨halone.1,by omega⟩,fun h => by rw [h.2]⟩ rfl rfl
  · rw [update_of_ne he,if_neg]
    rintro ⟨hroot,rfl⟩
    rw [hroot,hw,Option.some.injEq] at hw'
    exact he (by rw [hw'])

theorem put_kept (byte : UInt8) : Holds (p.put pte va byte) m
      (fun p' m' => KeptApart m₀ kroot ext (p' :: rest) m' ∧
        p' = { p with expected := update p.expected va byte } ∧
        ∀ q ∈ p :: rest, pteAt m' q.root = pteAt m q.root) (Never Panic Machine) := by
  have hv := userPage_of_le hva
  have hdata := k.family.data_of_held (k.held List.mem_cons_self hv hw)
  obtain ⟨f,hpte⟩ := k.family.store List.mem_cons_self hdata
    (writeBytes (m.ram (PageTableEntry.ppn pte)) (va % 4096) [byte])
  generalize hm' : setRow m _ _ = m' at f hpte
  have hsame : ∀ q ∈ p :: rest, pteAt m' q.root = pteAt m q.root :=
    fun q hq => hpte q.vm.pt (List.mem_map_of_mem hq)
  have hroots : ∀ r ∈ (p :: rest).map Process.root, pteAt m' r = pteAt m r := by
    intro r hr
    obtain ⟨q,hq,rfl⟩ := List.mem_map.mp hr
    exact hsame q hq
  have hrun : p.put pte va byte m =
      .ok { p with expected := update p.expected va byte } m' := by
    rw [← hm']
    rfl
  refine holds_ok hrun ⟨⟨f,?_,?_,?_,?_⟩,rfl,hsame⟩
  · intro q hq
    rcases List.mem_cons.mp hq with rfl | hq
    · exact (k.keeps p List.mem_cons_self).of_pte (hsame p List.mem_cons_self)
    · exact (k.keeps q (List.mem_cons_of_mem _ hq)).of_pte (hsame q (List.mem_cons_of_mem _ hq))
  · intro q hq
    rcases List.mem_cons.mp hq with rfl | hq
    · exact (k.covered p List.mem_cons_self).of_pte (hsame p List.mem_cons_self)
    · exact (k.covered q (List.mem_cons_of_mem _ hq)).of_pte (hsame q (List.mem_cons_of_mem _ hq))
  · intro r hr s hs v u w w' hv hu hwr hwrite hws
    rw [hroots r hr] at hwr
    rw [hroots s hs] at hws
    exact k.alone r hr s hs v u w w' hv hu hwr hwrite hws
  · intro q hq va' hva' w hw'
    rw [← hm',writeBytes_one]
    rcases List.mem_cons.mp hq with rfl | hq
    · replace hw' := (congrFun (hsame p List.mem_cons_self) _).symm.trans hw'
      rw [put_bytes k hva hw hwrite List.mem_cons_self hva' hw']
      change _ = update p.expected va byte va'
      rw [update_apply,k.reads p List.mem_cons_self va' hva' w hw']
      simp only [true_and]
    · have hmem := List.mem_cons_of_mem p hq
      rw [hsame q hmem] at hw'
      rw [put_bytes k hva hw hwrite hmem hva' hw',if_neg fun h => k.root_ne hq h.1]
      exact k.reads q hmem va' hva' w hw'

end

theorem fault_entry (k : KeptApart m₀ kroot ext (p :: rest) m)
    (done : Faulted m₀ kroot va pte p.vm vm' (rest.map (·.vm.pt)) key vma page (heldBy rest) ext m
      m') (hr : r ∈ (p :: rest).map Process.root) (u : ℕ) :
    pteAt m' r u = if r = p.root ∧ u = va / 4096 then
      some (mappedWord page.ppn (copyFlags (PageTableEntry.flags pte))) else pteAt m r u := by
  rcases List.mem_cons.mp hr with rfl | hr
  · unfold Process.root
    rw [done.copies.pte,update_apply]
    simp only [true_and]
  · obtain ⟨q,hq,rfl⟩ := List.mem_map.mp hr
    rw [if_neg fun h => k.root_ne hq h.1]
    exact congrFun (done.copies.others q.vm.pt (List.mem_map_of_mem hq)) u

theorem KeptApart.not_free (k : KeptApart m₀ kroot ext procs m) (hr : r ∈ procs.map Process.root)
    (hv : UserPage v) (hw : pteAt m r v = some w) :
    DataFrame m₀ kroot (procs.map (·.vm.pt)) m (PageTableEntry.ppn w) := by
  obtain ⟨q,hq,rfl⟩ := List.mem_map.mp hr
  exact k.family.data_of_held (k.held hq hv hw)

theorem put_again (vm : MemorySet) (e : ℕ → UInt8) (pte va : ℕ) (byte : UInt8) :
    (⟨vm, update e va byte⟩ : Process).put pte va byte = (⟨vm, e⟩ : Process).put pte va byte := by
  unfold Process.put
  simp only [update_idem]

theorem writable_copy (ppn pte : ℕ) :
    isWritable (mappedWord ppn (copyFlags (PageTableEntry.flags pte))) = true := by
  unfold isWritable mappedWord
  rw [flags_new]
  generalize PageTableEntry.flags pte = flags
  revert flags
  decide

theorem fault_covered {tables : List PageTable} {H : ℕ → ℕ}
    (done : Faulted m₀ kroot va pte vm vm' tables key vma page H ext m m') (c : Covered m vm)
    (hk : vm.areas[key]? = some vma) (hw : pteAt m (rootFrame vm.pt) (va / 4096) = some pte) :
    Covered m' vm' := by
  intro v w hv hword
  obtain ⟨old,hold⟩ : ∃ old, pteAt m (rootFrame vm.pt) v = some old := by
    rw [done.copies.root,done.copies.pte,update_apply] at hword
    split_ifs at hword with he
    · exact ⟨pte,he ▸ hw⟩
    · exact ⟨w,hword⟩
  obtain ⟨key',vma',hk',hbounds⟩ := c v old hv hold
  rw [done.areas]
  by_cases he : key' = key
  · rw [he,hk,Option.some.injEq] at hk'
    exact ⟨key,_,(getElem?_insert vm.areas key key _).trans (if_pos rfl),hk' ▸ hbounds⟩
  · exact ⟨key',vma',by rw [getElem?_insert,if_neg he]; exact hk',hbounds⟩

theorem fault_kept (k : KeptApart m₀ kroot ext (p :: rest) m)
    (done : Faulted m₀ kroot va pte p.vm vm' (rest.map (·.vm.pt)) key vma page (heldBy rest) ext m
      m') (hk : p.vm.areas[key]? = some vma) (hw : pteAt m p.root (va / 4096) = some pte) :
    KeptApart m₀ kroot ext ({ p with vm := vm' } :: rest) m' := by
  have hroot : ({ p with vm := vm' } : Process).root = p.root := done.copies.root
  have hroots : ({ p with vm := vm' } :: rest : List Process).map Process.root =
      (p :: rest).map Process.root := by rw [List.map_cons,List.map_cons,hroot]
  have hppn := ppn_mappedWord done.copies.inRam (copyFlags (PageTableEntry.flags pte))
  have hfree : ∀ r ∈ (p :: rest).map Process.root, ∀ u w, UserPage u → pteAt m r u = some w →
      PageTableEntry.ppn w ≠ page.ppn := by
    intro r hr u w hu hw he
    exact (k.not_free hr hu hw).used (he ▸ done.copies.fresh)
  refine ⟨done.copies.family.held_congr fun f => ?_,?_,?_,?_,?_⟩
  · rw [heldBy_cons]
    exact (Nat.add_comm _ _).le
  · intro q hq
    rcases List.mem_cons.mp hq with rfl | hq
    · exact done.keeps hk (k.keeps p List.mem_cons_self)
    · exact (k.keeps q (List.mem_cons_of_mem _ hq)).of_pte
        (done.copies.others q.vm.pt (List.mem_map_of_mem hq))
  · intro q hq
    rcases List.mem_cons.mp hq with rfl | hq
    · exact fault_covered done (k.covered p List.mem_cons_self) hk hw
    · exact (k.covered q (List.mem_cons_of_mem _ hq)).of_pte
        (done.copies.others q.vm.pt (List.mem_map_of_mem hq))
  · intro r hr s hs v u w w' hv hu hwr hwrite hws he
    rw [hroots] at hr hs
    rw [fault_entry k done hr] at hwr
    rw [fault_entry k done hs] at hws
    split at hwr <;> split at hws
    · rename_i hfirst hsecond
      exact ⟨hsecond.1.trans hfirst.1.symm,hsecond.2.trans hfirst.2.symm⟩
    · cases hwr
      exact (hfree s hs u w' hu hws (he.trans hppn)).elim
    · cases hws
      exact (hfree r hr v w hv hwr (he.symm.trans hppn)).elim
    · exact k.alone r hr s hs v u w w' hv hu hwr hwrite hws he
  · have old : ∀ q ∈ p :: rest, ∀ va' ≤ userUpperLimit, ∀ w,
        pteAt m' q.root (va' / 4096) = some w →
        m'.ram (PageTableEntry.ppn w) (va' % 4096) = q.expected va' := by
      intro q hq va' hva' w hw'
      have hmem := List.mem_map_of_mem (f := Process.root) hq
      rw [fault_entry k done hmem] at hw'
      split at hw'
      · rename_i he
        cases hw'
        rw [hppn,done.copies.bytes]
        refine k.reads q hq va' hva' pte ?_
        rw [he.1,he.2,hw]
      · rw [done.copies.kept _ (k.not_free hmem (userPage_of_le hva') hw')]
        exact k.reads q hq va' hva' w hw'
    intro q hq va' hva' w hw'
    rcases List.mem_cons.mp hq with rfl | hq
    · rw [hroot] at hw'
      exact old p List.mem_cons_self va' hva' w hw'
    · exact old q (List.mem_cons_of_mem _ hq) va' hva' w hw'

end Invariant

section Stores

theorem Resident.of_pte (r : Resident m vm)
    (h : pteAt m' (rootFrame vm.pt) = pteAt m (rootFrame vm.pt)) : Resident m' vm := by
  refine ⟨r.bounds,r.keyed,fun key vma v hk hv => ?_⟩
  rw [h]
  exact r.pages key vma v hk hv

theorem mem_pagesOf {areas : VmaRange} : v ∈ pagesOf areas ↔
    ∃ (key : ℕ) (vma : VirtMemoryAddr), areas[key]? = some vma ∧ v ∈ segmentPages vma := by
  unfold pagesOf
  simp only [List.mem_flatMap,Prod.exists,mem_toList]

theorem fault_resident {tables : List PageTable} {H : ℕ → ℕ}
    (done : Faulted m₀ kroot va pte vm vm' tables key vma page H ext m m') (r : Resident m vm)
    (hk : vm.areas[key]? = some vma)
    (right : ∀ (key' : ℕ) (vma' : VirtMemoryAddr), vm.areas[key']? = some vma' →
      va / 4096 ∈ segmentPages vma' → key' = key) : Resident m' vm' := by
  have hpte : ∀ u, pteAt m' (rootFrame vm'.pt) u = if u = va / 4096 then
      some (mappedWord page.ppn (copyFlags (PageTableEntry.flags pte)))
      else pteAt m (rootFrame vm.pt) u := by
    intro u
    rw [done.copies.root,done.copies.pte,update_apply]
  have hareas : ∀ (key' : ℕ) (vma' : VirtMemoryAddr), vm'.areas[key']? = some vma' →
      ∃ old : VirtMemoryAddr, vm.areas[key']? = some old ∧ old.startVaddr = vma'.startVaddr ∧
        old.endVaddr = vma'.endVaddr ∧ vma'.pma.pageManager = if key' = key then
          old.pma.pageManager.insert (va / 4096) page else old.pma.pageManager := by
    intro key' vma' hk'
    rw [done.areas,getElem?_insert] at hk'
    split at hk'
    · rename_i he
      cases hk'
      exact ⟨vma,he ▸ hk,rfl,rfl,(if_pos he).symm⟩
    · rename_i he
      exact ⟨vma',hk',rfl,rfl,(if_neg he).symm⟩
  refine ⟨fun key' vma' hk' => ?_,fun key' vma' hk' => ?_,fun key' vma' v hk' hv => ?_⟩
  · obtain ⟨old,hold,hs,he,-⟩ := hareas key' vma' hk'
    rw [← hs,← he]
    exact r.bounds key' old hold
  · obtain ⟨old,hold,hs,-⟩ := hareas key' vma' hk'
    rw [← hs]
    exact r.keyed key' old hold
  · obtain ⟨old,hold,hs,he,hpages⟩ := hareas key' vma' hk'
    unfold segmentPages at hv
    rw [← hs,← he] at hv
    rw [hpages,hpte]
    by_cases hva : v = va / 4096
    · rw [if_pos (right key' old hold (hva ▸ hv)),getElem?_insert,if_pos hva,if_pos hva]
      exact ⟨page,_,rfl,rfl,(ppn_mappedWord done.copies.inRam _).symm⟩
    · rw [if_neg hva]
      split
      · rw [getElem?_insert,if_neg hva]
        exact r.pages key' old v hold hv
      · exact r.pages key' old v hold hv

structure Stored (m₀ : Machine) (kroot : ℕ) (ext : ℕ → ℕ) (va : ℕ) (byte : UInt8) (p : Process)
    (rest : List Process) (m : Machine) (p' : Process) (m' : Machine) : Prop where
  kept : KeptApart m₀ kroot ext (p' :: rest) m'
  others : ∀ q ∈ rest, pteAt m' q.root = pteAt m q.root
  resident : Resident m p.vm → RightAt m p.vm va → Resident m' p'.vm
  carried : MayStore m p va → ReadsByte m' p' va byte

/-- The page may have become writable in between. -/
theorem put_stored {p₁ : Process} {m₁ : Machine} (k : KeptApart m₀ kroot ext (p₁ :: rest) m₁)
    (hva : va ≤ userUpperLimit) (hw : pteAt m₁ p₁.root (va / 4096) = some pte)
    (hwrite : isWritable pte = true) (others : ∀ q ∈ rest, pteAt m₁ q.root = pteAt m q.root)
    (resident : Resident m p.vm → RightAt m p.vm va → Resident m₁ p₁.vm) :
    Holds (p₁.put pte va byte) m₁ (Stored m₀ kroot ext va byte p rest m) (Never Panic Machine) := by
  refine (put_kept k hva hw hwrite byte).imp ?_
  rintro _ m' ⟨k',rfl,hpte⟩
  have hself := hpte p₁ List.mem_cons_self
  refine ⟨k',fun q hq => ?_,fun res right => Resident.of_pte (resident res right) hself,
    fun _ => ⟨pte,?_,?_⟩⟩
  · rw [hpte q (List.mem_cons_of_mem _ hq),others q hq]
  · exact (congrFun hself _).trans hw
  · rw [k'.reads _ List.mem_cons_self va hva pte ((congrFun hself _).trans hw)]
    exact update_self va byte p₁.expected

section

variable (k : KeptApart m₀ kroot ext (p :: rest) m)
include k

theorem fault_holds (hva : va ≤ userUpperLimit)
    (hw : pteAt m p.root (va / 4096) = some pte) (hshared : isShared pte = true) :
    Holds (MemorySet.handlePageFault p.vm va) m
      (fun r m' => KeptApart m₀ kroot ext ({ p with vm := r.1 } :: rest) m' ∧
        (∀ q ∈ rest, pteAt m' q.root = pteAt m q.root) ∧
        (Resident m p.vm → RightAt m p.vm va → Resident m' r.1) ∧
        ∃ w, pteAt m' (rootFrame r.1.pt) (va / 4096) = some w ∧ isWritable w = true)
      (fun e _ => e = .outOfFrames) := by
  obtain ⟨key,vma,found⟩ := (k.covered p List.mem_cons_self).found hva hw
  have hk := findVmByVaddr_some found
  have f : Family m₀ kroot (p.vm.pt :: rest.map (·.vm.pt))
      (fun f => heldBy rest f + spaceHeld p.vm f) ext m := by
    refine k.family.held_congr fun f => ?_
    rw [heldBy_cons,Nat.add_comm]
  refine (handlePageFault_copies f (k.keeps p List.mem_cons_self) hva hw hshared found).imp ?_
  rintro r m' ⟨page,done⟩
  refine ⟨fault_kept k done hk hw,fun q hq => done.copies.others q.vm.pt
    (List.mem_map_of_mem hq),fun res right => fault_resident done res hk ?_,_,?_,
    writable_copy page.ppn pte⟩
  · intro key' vma' hk' hv
    have hfound := right pte hw hshared key' vma' hk' hv
    rw [found,Option.some.injEq,Prod.mk.injEq] at hfound
    exact hfound.1.symm
  · rw [done.copies.root,done.copies.pte,update_self]

theorem store_holds (va : ℕ) (byte : UInt8) : Holds (p.store va byte) m
    (Stored m₀ kroot ext va byte p rest m) (fun e _ => e = .outOfFrames) := by
  have unchanged : ¬ MayStore m p va → Stored m₀ kroot ext va byte p rest m p m :=
    fun h => ⟨k,fun _ _ => rfl,fun r _ => r,fun h' => absurd h' h⟩
  refine holds_bind_ok (entry_eq k List.mem_cons_self va) ?_
  by_cases hva : va ≤ userUpperLimit
  · rw [if_pos hva]
    cases hw : pteAt m p.root (va / 4096) with
    | none =>
      refine holds_pure (unchanged ?_)
      rintro ⟨-,pte,hpte,-⟩
      cases hw.symm.trans hpte
    | some pte =>
      dsimp only
      split_ifs with hwrite hshared
      · exact (put_stored k hva hw hwrite (fun _ _ => rfl) fun r _ => r).weaken
      · refine (fault_holds k hva hw hshared).bind ?_
        rintro r m₁ ⟨k₁,others,resident,w,hw₁,hwrite₁⟩
        have hentry := (entry_eq k₁ List.mem_cons_self va).trans (by rw [if_pos hva])
        refine holds_bind_ok (hentry.trans (congrArg (EStateM.Result.ok · m₁) hw₁)) ?_
        dsimp only
        rw [if_pos hwrite₁,put_again]
        exact (put_stored k₁ hva hw₁ hwrite₁ others resident).weaken
      · refine holds_pure (unchanged ?_)
        rintro ⟨-,pte',hpte,hmay⟩
        cases hw.symm.trans hpte
        exact hmay.elim hwrite hshared
  · rw [if_neg hva]
    exact holds_pure (unchanged fun h => hva h.1)

end

end Stores

section Forks

variable {s : MemorySet.LazyFork}

theorem shared_entry (cov : Covered m p.vm) (sh : Sharing m₀ kroot p.vm (rest.map (·.vm.pt))
    (fun f => heldBy rest f + areasHeld p.vm.areas f) ext m (pagesOf p.vm.areas) s m') {w' : ℕ}
    (hr : r = rootFrame s.child.pt ∨ r = p.root) (hv : UserPage v) (hw : pteAt m' r v = some w') :
    ∃ w, ∃ page : Page, pteAt m p.root v = some w ∧ SharedAs w w' ∧ s.cow[v]? = some page ∧
      page.ppn = PageTableEntry.ppn w := by
  by_cases hd : v ∈ pagesOf p.vm.areas
  · obtain ⟨w,wp,wc,page,hold,hwp,hs,hwc,hsc,hpage,hppn⟩ := sh.shared v hd
    refine ⟨w,page,hold,?_,hpage,hppn⟩
    rcases hr with rfl | rfl
    · cases hwc.symm.trans hw
      exact hsc
    · cases hwp.symm.trans hw
      exact hs
  · obtain ⟨hold,hempty,-⟩ := sh.todo v hd
    rcases hr with rfl | rfl
    · rw [hempty hv] at hw
      cases hw
    · exact absurd (cov.mem hv (hold.symm.trans hw)) hd

/-- The child and the parent of a fork. -/
structure Shares (s : MemorySet.LazyFork) (p q : Process) : Prop where
  root : q.root = rootFrame s.child.pt ∨ q.root = p.root
  cow : q.vm.cowManager.pageManager = s.cow
  areas : ∀ (key : ℕ) (vma : VirtMemoryAddr), p.vm.areas[key]? = some vma →
    ∃ vma' : VirtMemoryAddr, q.vm.areas[key]? = some vma' ∧ vma'.startVaddr = vma.startVaddr ∧
      vma'.endVaddr = vma.endVaddr
  expected : q.expected = p.expected

def forked (s : MemorySet.LazyFork) (p : Process) (rest : List Process) : List Process :=
  ⟨s.child, p.expected⟩ :: { p with vm := { p.vm with cowManager := ⟨s.cow⟩ } } :: rest

theorem forked_cases (hcow : s.child.cowManager.pageManager = s.cow)
    (same : ∀ (key : ℕ) (vma : VirtMemoryAddr), p.vm.areas[key]? = some vma →
      s.child.areas[key]? = some (VirtMemoryAddr.fromAnother vma)) (hq : q ∈ forked s p rest) :
    Shares s p q ∨ q ∈ rest := by
  rcases List.mem_cons.mp hq with rfl | hq
  · exact .inl ⟨.inl rfl,hcow,fun key vma hk => ⟨_,same key vma hk,rfl,rfl⟩,rfl⟩
  · rcases List.mem_cons.mp hq with rfl | hq
    · exact .inl ⟨.inr rfl,rfl,fun _ vma hk => ⟨vma,hk,rfl,rfl⟩,rfl⟩
    · exact .inr hq

section

variable (k : KeptApart m₀ kroot ext (p :: rest) m) (sh : Sharing m₀ kroot p.vm
  (rest.map (·.vm.pt)) (fun f => heldBy rest f + areasHeld p.vm.areas f) ext m
  (pagesOf p.vm.areas) s m')
include sh

theorem pteAt_rest (hq : q ∈ rest) : pteAt m' q.root = pteAt m q.root :=
  sh.others q.vm.pt (List.mem_map_of_mem hq)

theorem areasHeld_child (f : ℕ) : areasHeld s.child.areas f = 0 := by
  refine Nat.eq_zero_of_not_pos fun hpos => ?_
  obtain ⟨key,vma,hk,hvma⟩ := total_pos_iff.mp hpos
  unfold vmaHeld at hvma
  rw [sh.bare key vma hk] at hvma
  exact absurd (total_empty _) hvma.ne'

theorem forked_resident (res : Resident m p.vm) :
    Resident m' { p.vm with cowManager := ⟨s.cow⟩ } := by
  refine ⟨res.bounds,res.keyed,fun key vma v hk hv => ?_⟩
  obtain ⟨page,w,hpage,hw,hppn⟩ := res.pages key vma v hk hv
  obtain ⟨w',wp,-,-,hw',hwp,hs,-⟩ := sh.shared v (mem_pagesOf.mpr ⟨key,vma,hk,hv⟩)
  cases hw.symm.trans hw'
  exact ⟨page,wp,hpage,hwp,hppn.trans hs.ppn.symm⟩

theorem Shares.covered (hq : Shares s p q) (cov : Covered m p.vm) : Covered m' q.vm := by
  intro v w hv hw
  obtain ⟨old,-,hold,-⟩ := shared_entry cov sh hq.root hv hw
  obtain ⟨key,vma,hk,hstart,hend⟩ := cov v old hv hold
  obtain ⟨vma',hk',hstart',hend'⟩ := hq.areas key vma hk
  exact ⟨key,vma',hk',hstart'.trans_le hstart,hend.trans_eq hend'.symm⟩

theorem Shares.keeps (hq : Shares s p q) (keeps : Keeps m p.vm) (cov : Covered m p.vm)
    (res : Resident m p.vm) : Keeps m' q.vm := by
  have hshared : ∀ v w, UserPage v → pteAt m' q.root v = some w → ∃ page : Page,
      q.vm.cowManager.pageManager[v]? = some page ∧ page.ppn = PageTableEntry.ppn w := by
    intro v w hv hw
    obtain ⟨old,page,-,hs,hpage,hppn⟩ := shared_entry cov sh hq.root hv hw
    exact ⟨page,hq.cow ▸ hpage,hppn.trans hs.ppn.symm⟩
  refine ⟨fun v w hv hw => .inl (hshared v w hv hw),fun v w hv hw _ => hshared v w hv hw,
    fun v page hpage => ?_⟩
  by_cases hd : v ∈ pagesOf p.vm.areas
  · obtain ⟨key,vma,hk,hv⟩ := mem_pagesOf.mp hd
    exact userPage_of_mem hv (res.bounds key vma hk).2
  · rw [hq.cow,(sh.todo v hd).2.2] at hpage
    exact keeps.keys v page hpage

include k

theorem Shares.reads (hq : Shares s p q) (res : Resident m p.vm) {va : ℕ}
    (hva : va ≤ userUpperLimit) (hw : pteAt m' q.root (va / 4096) = some w) :
    m'.ram (PageTableEntry.ppn w) (va % 4096) = q.expected va := by
  have cov := k.covered p List.mem_cons_self
  obtain ⟨old,-,hold,hs,-⟩ := shared_entry cov sh hq.root (userPage_of_le hva) hw
  obtain ⟨key,vma,hk,hv⟩ := mem_pagesOf.mp (cov.mem (userPage_of_le hva) hold)
  obtain ⟨page,w',hpage,hw',hppn⟩ := res.pages key vma _ hk hv
  cases hold.symm.trans hw'
  rw [hs.ppn,sh.bytes _ (Nat.add_pos_right _ (hppn ▸ areasHeld_pos hk hpage)),hq.expected]
  exact k.reads p List.mem_cons_self va hva old hold

theorem rest_reads (hq : q ∈ rest) {va : ℕ} (hva : va ≤ userUpperLimit)
    (hw : pteAt m' q.root (va / 4096) = some w) :
    m'.ram (PageTableEntry.ppn w) (va % 4096) = q.expected va := by
  rw [pteAt_rest sh hq] at hw
  have hheld := ((k.keeps q (List.mem_cons_of_mem _ hq)).backed _ w (userPage_of_le hva) hw).held
  have hpos : 0 < heldBy rest (PageTableEntry.ppn w) := hheld.trans_le
    (List.single_le_sum (fun _ _ => Nat.zero_le _) _
      (List.mem_map_of_mem (f := fun q => spaceHeld q.vm _) hq))
  rw [sh.bytes _ (Nat.add_pos_left hpos _)]
  exact k.reads q (List.mem_cons_of_mem _ hq) va hva w hw

/-- What the fork shares is not writable, and it was not mapped by the others for writing. -/
theorem forked_alone {procs : List Process} (h : ∀ q ∈ procs, Shares s p q ∨ q ∈ rest) :
    Alone (procs.map Process.root) m' := by
  intro r hr t ht v u w w' hv hu hwr hwrite hwt he
  obtain ⟨q,hq,rfl⟩ := List.mem_map.mp hr
  obtain ⟨q',hq',rfl⟩ := List.mem_map.mp ht
  have cov := k.covered p List.mem_cons_self
  rcases h q hq with hq | hq
  · obtain ⟨_,-,-,hs,-⟩ := shared_entry cov sh hq.root hv hwr
    rw [hs.readOnly] at hwrite
    cases hwrite
  · rw [pteAt_rest sh hq] at hwr
    have hmem := List.mem_map_of_mem (f := Process.root) (List.mem_cons_of_mem p hq)
    rcases h q' hq' with hq' | hq'
    · obtain ⟨old,-,hold,hs,-⟩ := shared_entry cov sh hq'.root hu hwt
      have halone := k.alone _ hmem _ List.mem_cons_self v u w old hv hu hwr hwrite hold
        (hs.ppn.symm.trans he)
      exact absurd halone.1.symm (k.root_ne hq)
    · rw [pteAt_rest sh hq'] at hwt
      exact k.alone _ hmem _ (List.mem_map_of_mem (List.mem_cons_of_mem p hq')) v u w w' hv hu
        hwr hwrite hwt he

theorem fork_kept (res : Resident m p.vm)
    (same : ∀ (key : ℕ) (vma : VirtMemoryAddr), p.vm.areas[key]? = some vma →
      s.child.areas[key]? = some (VirtMemoryAddr.fromAnother vma)) :
    KeptApart m₀ kroot ext (forked s p rest) m' := by
  have hcases : ∀ q ∈ forked s p rest, Shares s p q ∨ q ∈ rest :=
    fun q hq => forked_cases sh.same same hq
  refine ⟨sh.family.held_congr fun f => ?_,fun q hq => ?_,fun q hq => ?_,
    forked_alone k sh hcases,fun q hq va hva w hw => ?_⟩
  · rw [forked,heldBy_cons,heldBy_cons]
    unfold spaceHeld
    dsimp only
    rw [areasHeld_child sh]
    omega
  · rcases hcases q hq with hq | hq
    · exact hq.keeps sh (k.keeps p List.mem_cons_self) (k.covered p List.mem_cons_self) res
    · exact (k.keeps q (List.mem_cons_of_mem _ hq)).of_pte (pteAt_rest sh hq)
  · rcases hcases q hq with hq | hq
    · exact hq.covered sh (k.covered p List.mem_cons_self)
    · exact (k.covered q (List.mem_cons_of_mem _ hq)).of_pte (pteAt_rest sh hq)
  · rcases hcases q hq with hq | hq
    · exact hq.reads k sh res hva hw
    · exact rest_reads k sh hq hva hw

end

theorem fork_holds (k : KeptApart m₀ kroot ext (p :: rest) m) (res : Resident m p.vm) :
    Holds (MemorySet.fromUserLazily p.vm) m
      (fun r m' => KeptApart m₀ kroot ext (⟨r.2, p.expected⟩ :: { p with vm := r.1 } :: rest) m' ∧
        Resident m' r.1)
      (fun e _ => e = .outOfFrames ∨ ¬ (pagesOf p.vm.areas).Nodup) := by
  have f : Family m₀ kroot (p.vm.pt :: rest.map (·.vm.pt))
      (fun f => (heldBy rest f + areasHeld p.vm.areas f) +
        pagesHeld p.vm.cowManager.pageManager f) ext m := by
    refine k.family.held_congr fun f => ?_
    rw [heldBy_cons]
    unfold spaceHeld
    omega
  refine ((fromUserLazily_holds f res (fun f => Nat.le_add_left _ _) fun v page hv =>
    ((k.keeps p List.mem_cons_self).keys v page hv).of_succ).and
      (fromUserLazily_areas res m)).mono ?_
    fun _ _ h => h.1
  rintro r m' ⟨⟨s,rfl,sh⟩,same⟩
  exact ⟨fork_kept k sh res same,forked_resident sh res⟩

end Forks

section Runs

structure Isolated (m₀ : Machine) (kroot : ℕ) (ext : ℕ → ℕ) (w : World) (m : Machine) : Prop where
  kept : KeptApart m₀ kroot ext w.all m
  resident : Resident m w.parent.vm

theorem exec_isolated {w : World} (i : Isolated m₀ kroot ext w m) (op : CowOp)
    (right : RightSegment op w m) :
    Holds (op.exec w) m (fun w' m' => Isolated m₀ kroot ext w' m' ∧ op.CarriedOut w m w' m')
      (fun e _ => e = .outOfFrames ∨ ¬ (pagesOf w.parent.vm.areas).Nodup) := by
  cases op with
  | fork =>
    refine (fork_holds i.kept i.resident).bind ?_
    rintro r m' ⟨k,res⟩
    exact holds_pure ⟨⟨k.perm (.swap _ _ _),res⟩,trivial⟩
  | write who va byte =>
    cases who with
    | none =>
      refine ((store_holds i.kept va byte).onError fun _ _ h => .inl h).bind ?_
      intro p m' stored
      refine holds_pure ⟨⟨stored.kept,stored.resident i.resident right⟩,fun q hq may => ?_⟩
      rw [← Option.some.inj hq] at may
      exact ⟨p,rfl,stored.carried may⟩
    | some n =>
      change Holds (match w.children[n]? with
        | none => _
        | some c => _) m _ _
      cases hc : w.children[n]? with
      | none => exact holds_pure ⟨i,fun q hq => by cases hc.symm.trans hq⟩
      | some c =>
        obtain ⟨hlt,rfl⟩ := List.getElem?_eq_some_iff.mp hc
        have hfront : w.all.Perm (w.children[n] :: w.parent :: w.children.eraseIdx n) :=
          ((List.getElem_cons_eraseIdx_perm hlt).symm.cons w.parent).trans (.swap _ _ _)
        refine ((store_holds (i.kept.perm hfront) va byte).onError
          fun _ _ h => .inl h).bind ?_
        intro c' m' stored
        refine holds_pure ⟨⟨stored.kept.perm ?_,Resident.of_pte i.resident
          (stored.others w.parent List.mem_cons_self)⟩,fun q hq may => ?_⟩
        · exact (List.Perm.swap _ _ _).trans ((List.set_perm_cons_eraseIdx hlt c').symm.cons _)
        · cases hc.symm.trans hq
          exact ⟨c',List.getElem?_set_self hlt,stored.carried may⟩

/-- What the space reads. -/
def memoryOf (m : Machine) (ms : MemorySet) (va : ℕ) : UInt8 :=
  ((pteAt m (rootFrame ms.pt) (va / 4096)).map fun w =>
    m.ram (PageTableEntry.ppn w) (va % 4096)).getD 0

/-- A space with all its pages, before the first fork. The segments are under their starts, and no
frame is mapped twice for writing. -/
structure Start (m₀ : Machine) (kroot : ℕ) (ext : ℕ → ℕ) (ms : MemorySet) (m : Machine) :
    Prop where
  family : Family m₀ kroot [ms.pt] (spaceHeld ms) ext m
  keeps : Keeps m ms
  covered : Covered m ms
  resident : Resident m ms
  alone : Alone [rootFrame ms.pt] m

def World.start (ms : MemorySet) (m : Machine) : World := ⟨⟨ms, memoryOf m ms⟩, []⟩

theorem Start.isolated {ms : MemorySet} (start : Start m₀ kroot ext ms m) :
    Isolated m₀ kroot ext (World.start ms m) m := by
  refine ⟨⟨start.family.held_congr fun f => ?_,fun p hp => ?_,fun p hp => ?_,start.alone,
    fun p hp va _ w hw => ?_⟩,start.resident⟩
  · exact List.sum_singleton.le
  · rw [List.mem_singleton.mp hp]
    exact start.keeps
  · rw [List.mem_singleton.mp hp]
    exact start.covered
  · rw [List.mem_singleton.mp hp] at hw ⊢
    change pteAt m (rootFrame ms.pt) _ = _ at hw
    change _ = memoryOf m ms va
    simp [memoryOf,hw]

/-- The second part says that stores are carried out, and where an operation can stop. -/
theorem forks_kept_apart {ms : MemorySet} {w : World} {m' : Machine}
    (start : Start m₀ kroot ext ms m)
    (run : Runs CowOp.exec RightSegment (World.start ms m) m w m') :
    (∀ p ∈ w.all, ∀ va ≤ userUpperLimit, ∀ pte, pteAt m' p.root (va / 4096) = some pte →
      m'.ram (PageTableEntry.ppn pte) (va % 4096) = p.expected va) ∧
    ∀ op, RightSegment op w m' → Holds (op.exec w) m' (op.CarriedOut w m')
      (fun e _ => e = .outOfFrames ∨ ¬ (pagesOf w.parent.vm.areas).Nodup) := by
  have isolated : Isolated m₀ kroot ext w m' :=
    run.invariant (Isolated m₀ kroot ext) (fun op _ _ i right => (exec_isolated i op right).mono
      (fun _ _ h => h.1) fun _ _ _ => trivial)
      start.isolated
  exact ⟨isolated.kept.reads,
    fun op right => (exec_isolated isolated op right).imp fun _ _ h => h.2⟩

end Runs

section Examples

theorem booted_family {kernel : PageTable} (booted : Booted m kernel kroot) :
    Family m kroot [] (fun _ => 0) m.strong m := by
  have table : ∀ g, AnyTable m kroot [] g → TableFrame m kroot g := by
    rintro g (hg | ⟨t,ht,-⟩)
    · exact hg
    · cases ht
  refine ⟨booted.tree,⟨kernel,booted.kernelSpace,booted.rootPaddr⟩,fun _ _ => rfl,
    fun t ht => ?_,.nil,booted.tree.freeInRam,fun g hg => booted.tree.notFree g (table g hg),
    fun p => (Nat.zero_add _).le,fun p hp => ?_,booted.caches⟩
  · cases ht
  · obtain ⟨hfree,htable,hram⟩ := booted.live p hp
    exact ⟨hfree,fun hg => htable (table p hg),hram⟩

def oneSegment (pages : BTreeMap Page) : VirtMemoryAddr :=
  ⟨⟨pages, none⟩, 0x10000, 0x11000, MapPermission.R ||| MapPermission.W ||| MapPermission.U, .mmap,
    .framed, none⟩

/-- A space with one segment of one page. -/
def onePage : Kernel MemorySet := do
  let ms ← MemorySet.newUser
  let r ← (oneSegment ∅).mapOne ms.pt 0x10 none
  pure { ms with areas := ms.areas.insert 0x10000 r.1, pt := r.2.1 }

theorem onePage_start (f : Family m₀ kroot [] (fun _ => 0) ext m) :
    Holds onePage m (Start m₀ kroot ext) (fun _ _ => True) := by
  refine (newUser_holds f).orAny.bind ?_
  rintro _ m₁ ⟨pt,rfl,made⟩
  have f₁ : Family m₀ kroot [pt] (fun p => 0 + pagesHeld (oneSegment ∅).pma.pageManager p) ext
      m₁ := made.family.held_congr fun p => by simp [oneSegment,pagesHeld,total_empty]
  refine (f₁.mapFresh (by unfold UserPage userUpperLimit; omega) rfl).orAny.bind ?_
  rintro ⟨vma,pt',ppn⟩ m' ⟨page,rfl,mapped⟩
  have hareas : ∀ (key : ℕ) (vma : VirtMemoryAddr),
      ((∅ : VmaRange).insert 0x10000 (oneSegment ((∅ : BTreeMap Page).insert 0x10 page)))[key]? =
        some vma → vma = oneSegment ((∅ : BTreeMap Page).insert 0x10 page) :=
    forall_insert (fun _ _ h => by cases h) rfl
  have hpte : ∀ v w, UserPage v → pteAt m' (rootFrame pt') v = some w →
      v = 0x10 ∧ w = mappedWord page.ppn (pteFlagsFrom (oneSegment ∅).mapPermission) := by
    intro v w hv h
    rw [mapped.root,mapped.pte,update_apply] at h
    split_ifs at h with he
    · exact ⟨he,(Option.some.inj h).symm⟩
    · rw [made.empty v hv] at h
      cases h
  have hpage : ((∅ : BTreeMap Page).insert 0x10 page)[0x10]? = some page := by
    rw [getElem?_insert,if_pos rfl]
  have hkey : ((∅ : VmaRange).insert 0x10000
      (oneSegment ((∅ : BTreeMap Page).insert 0x10 page)))[0x10000]? =
        some (oneSegment ((∅ : BTreeMap Page).insert 0x10 page)) := by
    rw [getElem?_insert,if_pos rfl]
  have hppn := ppn_mappedWord mapped.inRam (pteFlagsFrom (oneSegment ∅).mapPermission)
  have hmapped : pteAt m' (rootFrame pt') 0x10 =
      some (mappedWord page.ppn (pteFlagsFrom (oneSegment ∅).mapPermission)) := by
    rw [mapped.root,mapped.pte,update_self]
  refine holds_pure ⟨mapped.family.held_congr fun p => ?_,⟨?_,?_,?_⟩,?_,⟨?_,?_,?_⟩,?_⟩
  · have hins := total_insert (fun vma => vmaHeld vma p) ∅ 0x10000
      (oneSegment ((∅ : BTreeMap Page).insert 0x10 page))
    have hcow : pagesHeld CowManager.new.pageManager p = 0 := total_empty _
    unfold spaceHeld areasHeld
    exact hins.le
  · intro v w hv hw
    obtain ⟨rfl,rfl⟩ := hpte v w hv hw
    exact .inr ⟨0x10000,_,page,hkey,hpage,hppn.symm⟩
  · intro v w hv hw hshared
    obtain ⟨rfl,rfl⟩ := hpte v w hv hw
    unfold isShared mappedWord at hshared
    rw [flags_new] at hshared
    exact absurd hshared (by decide)
  · intro v page h
    exact absurd h (by simp [CowManager.new])
  · intro v w hv hw
    obtain ⟨rfl,-⟩ := hpte v w hv hw
    exact ⟨0x10000,_,hkey,(by decide : 0x10000 ≤ 0x10 * 4096 ∧ (0x10 + 1) * 4096 ≤ 0x11000)⟩
  · intro key vma h
    rw [hareas key vma h]
    exact (by decide : 0x10000 ≤ userUpperLimit ∧ 0x11000 ≤ userUpperLimit)
  · intro key vma h
    rw [getElem?_insert] at h
    split_ifs at h with he
    · rw [he,← Option.some.inj h]
      rfl
    · cases h
  · intro key vma v h hv
    rw [hareas key vma h] at hv ⊢
    obtain rfl : v = 0x10 := by simpa [segmentPages,oneSegment] using hv
    exact ⟨page,_,hpage,hmapped,hppn.symm⟩
  · intro r hr s hs v u w w' hv hu hw _ hw' _
    rw [List.mem_singleton.mp hr] at hw ⊢
    rw [List.mem_singleton.mp hs] at hw' ⊢
    exact ⟨rfl,(hpte u w' hu hw').1.trans (hpte v w hv hw).1.symm⟩

def oneWrite : List CowOp := [.fork, .write (some 0) 0x10000 7, .fork]

theorem forks_kept_apart_one_write : ∃ ms m w m', onePage (bootMachine 64) = .ok ms m ∧
    Runs CowOp.exec RightSegment (World.start ms m) m w m' ∧
    (∀ p ∈ w.all, memoryOf m' p.vm 0x10000 = p.expected 0x10000) ∧
    w.all.map (fun p => p.expected 0x10000) = [0, 0, 7] := by
  have computed : returnsWith onePage (bootMachine 64) (fun ms m =>
      returnsWith (oneWrite.foldlM (fun w op => op.exec w) (World.start ms m)) m fun w m' =>
        w.all.all (fun p => (pteAt m' p.root 0x10).isSome) &&
        decide (w.all.map (fun p => p.expected 0x10000) = [0,0,7])) = true := by
    decide +kernel
  obtain ⟨ms,m,made,computed⟩ := returnsWith_elim computed
  obtain ⟨w,m',ran,computed⟩ := returnsWith_elim computed
  rw [Bool.and_eq_true,decide_eq_true_eq,List.all_eq_true] at computed
  obtain ⟨kernel,kroot,booted⟩ := bootMachine_booted (n := 64) (by decide) (by decide)
  have start := (onePage_start (booted_family booted)).of_ok made
  have run : Runs CowOp.exec RightSegment (World.start ms m) m w m' := by
    refine Runs.of_foldlM oneWrite (fun op hop w m => ?_) .refl ran
    simp only [oneWrite,List.mem_cons,List.not_mem_nil,or_false] at hop
    rcases hop with rfl | rfl | rfl <;> trivial
  refine ⟨ms,m,w,m',made,run,fun p hp => ?_,computed.2⟩
  obtain ⟨pte,hpte⟩ := Option.isSome_iff_exists.mp (computed.1 p hp)
  change pteAt m' (rootFrame p.vm.pt) _ = _ at hpte
  rw [← (forks_kept_apart start run).1 p hp 0x10000 (by decide) pte hpte]
  simp [memoryOf,hpte]

def borderWrite : List CowOp := [.fork, .write none 0x11000 1, .fork]

theorem fork_reads_old_byte : ∃ ms m₁ p m w m', MemorySet.newUser (bootMachine 64) = .ok ms m₁ ∧
    Runs Call.exec (fun _ _ _ => True) ⟨ms, ∅⟩ m₁ p m ∧
    (∀ e ∈ p.vm.areas.toList, ∀ v ∈ segmentPages e.2, e.2.pma.pageManager[v]?.isSome = true ∧
      (pteAt m (rootFrame p.vm.pt) v).isSome = true) ∧
    Runs CowOp.exec (fun _ _ _ => True) (World.start p.vm m) m w m' ∧
    ∃ c ∈ w.children, (pteAt m' c.root 0x11).isSome = true ∧ c.expected 0x11000 = 1 ∧
      memoryOf m' c.vm 0x11000 = 0 := by
  have computed : fromBoot 64 [.mmap 0x10000 0x1000 3 0x32 0 0,.mmap 0x11000 0x1000 3 0x32 0 0,
      .fault 0x10001,.fault 0x11001] (fun p m =>
      (p.vm.areas.toList.all fun e => (segmentPages e.2).all fun v =>
        e.2.pma.pageManager[v]?.isSome && (pteAt m (rootFrame p.vm.pt) v).isSome) &&
      returnsWith (borderWrite.foldlM (fun w op => op.exec w) (World.start p.vm m)) m fun w m' =>
        w.children.any fun c => (pteAt m' c.root 0x11).isSome &&
          (decide (c.expected 0x11000 = 1) && decide (memoryOf m' c.vm 0x11000 = 0))) = true := by
    decide +kernel
  obtain ⟨-,-,ms,m₁,p,m,created,run,-,-,-,computed⟩ :=
    fromBoot_elim (by decide) computed
  rw [Bool.and_eq_true] at computed
  obtain ⟨w,m',ran,found⟩ := returnsWith_elim computed.2
  refine ⟨ms,m₁,p,m,w,m',created,run,?_,Runs.of_foldlM borderWrite
    (fun _ _ _ _ => trivial) .refl ran,?_⟩
  · simpa only [List.all_eq_true,Bool.and_eq_true] using computed.1
  · simpa only [List.any_eq_true,Bool.and_eq_true,decide_eq_true_eq] using found

end Examples

end DuckOs.CopyOnWrite
