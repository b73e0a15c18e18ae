import DuckOs.PageTableRefinement

namespace DuckOs.BootMachine
open ExecutionRules AddressModel PermissionFlags KernelMachine PageTableModel PageTableTree
open PageTableOperations PageTableRefinement

def bootOps : List TableOp :=
  [.map 0xffffffff80200 0x80200 (PTEFlags.R ||| PTEFlags.X),
    .map 0xffffffff10001 0x10001 (PTEFlags.R ||| PTEFlags.W)]

def bootTable : Kernel PageTable := do
  let pt ← PageTable.new
  bootOps.foldlM TableOp.run pt

def imageEnd : ℕ := 0x80400

def bootMachine (n : ℕ) : Machine :=
  match bootTable (coldMachine imageEnd n) with
  | .ok pt m => { m with kernelSpace := some pt }
  | .error _ m => m

theorem coldMachine_ram {n : ℕ} (hn : n ≤ 0x7c00) :
    ∀ f ∈ (coldMachine imageEnd n).frameAllocator.free, InRam f :=
  coldMachine_inRam (by decide) (by unfold imageEnd; omega)

theorem bootOps_legal : LegalRun ∅ bootOps := by decide +kernel

structure Coming (n used : ℕ) (f : PageMap) (pt : PageTable) (m : Machine) : Prop where
  table : ∃ root, Represents m pt root f
  strong : m.strong = fun _ => 0
  caches : m.pageCaches = fun _ => ∅
  free : n ≤ m.frameAllocator.free.length + used

theorem new_coming {n : ℕ} (hn : n ≤ 0x7c00) (hpos : 1 ≤ n) :
    Holds PageTable.new (coldMachine imageEnd n) (Coming n 1 ∅) (Never Panic Machine) := by
  have hlen : (coldMachine imageEnd n).frameAllocator.free.length = n := List.length_range'
  have spec := new_represents (coldMachine_ram hn)
  cases ha : (coldMachine imageEnd n).frameAllocator.alloc with
  | none =>
    rw [alloc_eq_none ha] at hlen
    exact absurd hlen (by rw [List.length_nil]; omega)
  | some xr =>
    obtain ⟨x,rest⟩ := xr
    have hx : InRam x := coldMachine_ram hn x (alloc_mem ha)
    have hrun := bind_ok (f := fun frame => pure (⟨ppnToPhys frame,[frame]⟩ : PageTable))
      (allocFrameUnwrap_some ha hx)
    obtain ⟨root,r,hfree⟩ := spec.of_ok hrun
    exact holds_ok hrun ⟨⟨root,r⟩,rfl,rfl,by omega⟩

theorem map_coming {n used : ℕ} {f : PageMap} {pt : PageTable} {m : Machine} {vpn ppn : ℕ}
    {flags : PTEFlags} (c : Coming n used f pt m) (legal : (TableOp.map vpn ppn flags).Legal f)
    (hused : used + 2 ≤ n) :
    Holds ((TableOp.map vpn ppn flags).run pt) m
      (Coming n (used + 2) ((TableOp.map vpn ppn flags).apply f)) (Never Panic Machine) := by
  obtain ⟨root,r⟩ := c.table
  have hfree := c.free
  refine ((map_step r flags legal).and (mapOne_holds r.tree r.rootPaddr vpn ppn flags)).mono ?_ ?_
  · rintro pt' m' ⟨⟨r',hlen⟩,-,-,new,-,-,ed⟩
    have hrest := ed.rest
    refine ⟨⟨root,r'⟩,?_,?_,by omega⟩
    · rw [hrest]
      exact c.strong
    · rw [hrest]
      exact c.caches
  · rintro e m' ⟨⟨-,hfew⟩,-⟩
    omega

theorem bootTable_coming {n : ℕ} (hn : n ≤ 0x7c00) (hpos : 5 ≤ n) :
    Holds bootTable (coldMachine imageEnd n)
      (Coming n 5 (bootOps.foldl TableOp.apply ∅)) (Never Panic Machine) := by
  obtain ⟨first,second,-⟩ := bootOps_legal
  refine Holds.bind (new_coming hn (by omega)) ?_
  intro pt m c
  refine Holds.bind (map_coming c first (by omega)) ?_
  intro pt₁ m₁ c₁
  refine Holds.bind (map_coming c₁ second (by omega)) ?_
  intro pt₂ m₂ c₂
  exact holds_pure c₂

theorem bootMachine_table {n : ℕ} (hn : n ≤ 0x7c00) (hpos : 5 ≤ n) : ∃ kernel root,
    (bootMachine n).kernelSpace = some kernel ∧
    Represents (bootMachine n) kernel root (bootOps.foldl TableOp.apply ∅) ∧
    (bootMachine n).strong = (fun _ => 0) ∧ (bootMachine n).pageCaches = fun _ => ∅ := by
  obtain ⟨pt,m,hrun,c⟩ := (bootTable_coming hn hpos).returns
  obtain ⟨root,r⟩ := c.table
  have hm : bootMachine n = { m with kernelSpace := some pt } := by
    unfold bootMachine
    rw [hrun]
  refine ⟨pt,root,?_⟩
  rw [hm]
  exact ⟨rfl,⟨r.rootPaddr,⟨r.tree.separated,r.tree.members,r.tree.inRam,r.tree.notFree,
    r.tree.freeInRam⟩,r.entries,r.accepted,r.bounded⟩,c.strong,c.caches⟩

end DuckOs.BootMachine
