import DuckOs.PageTableEntries
import DuckOs.RadixTree

namespace DuckOs.PageTableTree
open ExecutionRules LittleEndianWords AddressModel KernelMachine PageTableModel Function
open RadixTree

variable {m : Machine} {f g ppn : ℕ} {a rest : FrameAllocator}

def pteFormat : Format ℕ := ⟨PageTableEntry.isValid, PageTableEntry.ppn⟩

def tableHeap (m : Machine) : Heap ℕ := pteWord m

abbrev reachIn (m : Machine) (root : ℕ) (p : List ℕ) : Option ℕ :=
  reach pteFormat (tableHeap m) root p

abbrev lookupIn (m : Machine) (root : ℕ) (p : List ℕ) (i : ℕ) : Option ℕ :=
  lookup pteFormat (tableHeap m) root p i

def vaPath (va : ℕ) : List ℕ := [(pteVpn va).1, (pteVpn va).2.1]
def vaIndex (va : ℕ) : ℕ := (pteVpn va).2.2

/-- The valid leaf entry that translates an address. -/
def entryAt (m : Machine) (root va : ℕ) : Option ℕ := lookupIn m root (vaPath va) (vaIndex va)

def slotAt (m : Machine) (root va : ℕ) : Option Slot :=
  (reachIn m root (vaPath va)).bind fun f =>
    if PageTableEntry.isValid (pteWord m f (vaIndex va)) then some ⟨f, vaIndex va⟩ else none

def InRam (f : ℕ) : Prop := 0x80200 ≤ f ∧ f ≤ 0x88000

/-- The frames `S` hold the tables below `root`, and the allocator owns none of them. -/
structure Tree (m : Machine) (root : ℕ) (S : ℕ → Prop) : Prop where
  separated : Separated pteFormat (tableHeap m) root 3
  members : ∀ p f, p.length < 3 → reachIn m root p = some f → S f
  inRam : ∀ f, S f → InRam f
  notFree : ∀ f, S f → f ∉ m.frameAllocator.free
  freeInRam : ∀ f ∈ m.frameAllocator.free, InRam f

theorem Tree.root_mem {root : ℕ} {S : ℕ → Prop} (t : Tree m root S) : S root :=
  t.members [] root (by simp) rfl

theorem Tree.weaken {root : ℕ} {S S' : ℕ → Prop} (t : Tree m root S)
    (sub : ∀ f, S f → S' f) (ram : ∀ f, S' f → InRam f)
    (used : ∀ f, S' f → f ∉ m.frameAllocator.free) : Tree m root S' :=
  ⟨t.separated,fun p f hp hr => sub f (t.members p f hp hr),ram,used,t.freeInRam⟩

def putPte (m : Machine) (s : Slot) (w : ℕ) : Machine :=
  setRow m s.frame (writeWord (m.ram s.frame) s.index w)

theorem readPte_eq (s : Slot) (m : Machine) : readPte s m = .ok (pteWord m s.frame s.index) m := rfl

theorem writePte_eq (s : Slot) (w : ℕ) (m : Machine) : writePte s w m = .ok () (putPte m s w) := rfl

theorem pteWord_lt (m : Machine) (f i : ℕ) : pteWord m f i < 2 ^ 64 := readWord_lt _ _

theorem pteWord_congr {m' : Machine} (h : m'.ram f = m.ram f) (i : ℕ) :
    pteWord m' f i = pteWord m f i := by
  unfold pteWord
  rw [h]

theorem putPte_ram_ne (m : Machine) (s : Slot) (w : ℕ) (h : g ≠ s.frame) :
    (putPte m s w).ram g = m.ram g := update_of_ne h _ _

theorem pteWord_putPte_same (m : Machine) (s : Slot) {w : ℕ} (hw : w < 2 ^ 64) :
    pteWord (putPte m s w) s.frame s.index = w := by
  have h : (putPte m s w).ram s.frame = writeWord (m.ram s.frame) s.index w :=
    update_self _ _ _
  rw [pteWord,h,readWord_writeWord_same _ _ _ hw]

theorem pteWord_putPte_ne (m : Machine) (s : Slot) (w : ℕ) {j : ℕ}
    (h : ¬ (g = s.frame ∧ j = s.index)) : pteWord (putPte m s w) g j = pteWord m g j := by
  by_cases hg : g = s.frame
  · have hj : j ≠ s.index := fun hc => h ⟨hg,hc⟩
    have hr : (putPte m s w).ram s.frame = writeWord (m.ram s.frame) s.index w :=
      update_self _ _ _
    rw [hg,pteWord,hr,readWord_writeWord_ne _ _ _ _ hj]
    rfl
  · exact pteWord_congr (putPte_ram_ne m s w hg) j

def takeFrame (m : Machine) (ppn : ℕ) (rest : FrameAllocator) : Machine :=
  setRow { m with frameAllocator := rest } ppn fun _ => 0

theorem alloc_eq_some
    (h : a.alloc = some (ppn, rest)) : a.free = ppn :: rest.free := by
  obtain ⟨free,ordered,nodup⟩ := a
  cases free with
  | nil => cases h
  | cons p l =>
    obtain ⟨rfl,rfl⟩ := h
    rfl

theorem alloc_mem
    (h : a.alloc = some (ppn, rest)) : ppn ∈ a.free := by
  rw [alloc_eq_some h]
  exact List.mem_cons_self

theorem alloc_sub
    (h : a.alloc = some (ppn, rest)) : ∀ g ∈ rest.free, g ∈ a.free := by
  intro g hg
  rw [alloc_eq_some h]
  exact List.mem_cons_of_mem _ hg

theorem alloc_eq_none (h : a.alloc = none) : a.free = [] := by
  obtain ⟨free,ordered,nodup⟩ := a
  cases free with
  | nil => rfl
  | cons p l => cases h

theorem alloc_not_mem
    (h : a.alloc = some (ppn, rest)) : ppn ∉ rest.free := by
  have hn := a.nodup
  rw [alloc_eq_some h] at hn
  exact (List.nodup_cons.mp hn).1

theorem dealloc_some (hp : ppn ∉ a.free) :
    ∃ rest, a.dealloc ppn = some rest ∧ ∀ g, g ∈ rest.free ↔ g = ppn ∨ g ∈ a.free := by
  unfold FrameAllocator.dealloc
  rw [dif_neg hp]
  refine ⟨_,rfl,fun g => ?_⟩
  exact List.mem_orderedInsert (· ≤ ·)

theorem checkPaddr_frame (h : InRam f) : checkPaddr (f * 4096) = true := by
  unfold InRam at h
  rw [checkPaddr_iff]
  omega

theorem pteArray_frame (h : InRam f) (m : Machine) : pteArray (f * 4096) m = .ok f m := by
  have hs : (f * 4096) >>> pageSizeBits = f := by
    rw [Nat.shiftRight_eq_div_pow]
    change f * 4096 / 4096 = f
    omega
  rw [pteArray,guarded_eq,checkPaddr_frame h,if_pos rfl,hs]

theorem ppnToPhys_frame (h : InRam f) : ppnToPhys f = f * 4096 := by
  unfold InRam at h
  exact ppnToPhys_of_lt (by omega)

theorem byteArray_frame (h : InRam f) (m : Machine) : byteArray (ppnToPhys f) m = .ok f m := by
  rw [ppnToPhys_frame h]
  exact pteArray_frame h m

theorem allocFrame_some
    (h : m.frameAllocator.alloc = some (ppn, rest)) (hr : InRam ppn) :
    allocFrame m = .ok (some ppn) (takeFrame m ppn rest) := by
  unfold allocFrame
  rw [get_bind]
  simp only [h]
  have hset : (set { m with frameAllocator := rest } : Kernel PUnit) m =
      .ok ⟨⟩ { m with frameAllocator := rest } := rfl
  have hnew : FrameTracker.new ppn { m with frameAllocator := rest } =
      .ok ppn (takeFrame m ppn rest) := by
    unfold FrameTracker.new
    rw [bind_ok (byteArray_frame hr _)]
    rfl
  change EStateM.map some (FrameTracker.new ppn) _ = _
  unfold EStateM.map
  rw [hnew]

theorem allocFrameUnwrap_some
    (h : m.frameAllocator.alloc = some (ppn, rest)) (hr : InRam ppn) :
    allocFrameUnwrap m = .ok ppn (takeFrame m ppn rest) := by
  unfold allocFrameUnwrap
  rw [bind_ok (allocFrame_some h hr)]
  rfl

theorem allocFrameUnwrap_none (h : m.frameAllocator.alloc = none) :
    allocFrameUnwrap m = .error .outOfFrames m := by
  have ha : allocFrame m = .ok none m := by
    unfold allocFrame
    rw [get_bind]
    simp only [h]
    rfl
  unfold allocFrameUnwrap
  rw [bind_ok ha]
  rfl

theorem takeFrame_ram_self (m : Machine) (ppn : ℕ) (rest : FrameAllocator) :
    (takeFrame m ppn rest).ram ppn = fun _ => 0 := update_self _ _ _

theorem takeFrame_ram_ne (m : Machine) (rest : FrameAllocator) (h : g ≠ ppn) :
    (takeFrame m ppn rest).ram g = m.ram g := update_of_ne h _ _

end DuckOs.PageTableTree
