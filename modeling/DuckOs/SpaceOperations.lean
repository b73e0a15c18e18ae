import DuckOs.SegmentPush
import DuckOs.SegmentProtect

namespace DuckOs.SpaceOperations
open ExecutionRules AddressModel PermissionFlags KernelMachine
open PageTableOperations PageModel VirtMemoryModel MemorySetModel
open FrameOwnership SegmentViews SegmentUnmap AreaUnmap PageInstalls SegmentPush SegmentProtect
open OrderedMaps

variable {root : ℕ} {K : ℕ → Prop}

/-- One operation with the arguments its callers choose. -/
inductive SpaceOp where
  | push (first last : ℕ) (permission : MapPermission) (mapType : MapType) (vmaType : VmaType)
      (handler : Option PageFaultHandler) (data : Option (List UInt8)) (offset : ℕ)
  | mmapAnywhere (hint len : ℕ) (permission : MapPermission) (mapType : MapType)
      (handler : Option PageFaultHandler) (file : Option BackenFile)
  | mmapFixed (first last : ℕ) (permission : MapPermission) (mapType : MapType)
      (handler : Option PageFaultHandler) (file : Option BackenFile)
  | munmap (first last : ℕ)
  | mprotect (first last : ℕ) (flags : MapPermission)
  | expand (first last : ℕ)
  | fault (vaddr : ℕ)

def install (ms : MemorySet) (file : Option BackenFile) : Option VirtMemoryAddr → Kernel MemorySet
  | none => pure ms
  | some vma => do
    let r ← ms.mmap vma file
    pure r.1

def SpaceOp.exec : SpaceOp → MemorySet → Kernel MemorySet
  | .push first last permission mapType vmaType handler data offset, ms => do
    let vma ← VirtMemoryAddr.new first last permission mapType vmaType handler
    ms.push vma data offset
  | .mmapAnywhere hint len permission mapType handler file, ms => do
    let vma ← ms.allocVmaAnywhere hint len permission mapType handler
    install ms file vma
  | .mmapFixed first last permission mapType handler file, ms => do
    let r ← ms.allocVmaFixed first last permission mapType handler
    install r.1 file r.2
  | .munmap first last, ms => ms.munmap first last
  | .mprotect first last flags, ms => ms.mprotect first last flags
  | .expand first last, ms => do
    let r ← ms.expand first last
    pure r.1
  | .fault vaddr, ms => do
    let r ← ms.handlePageFault vaddr
    pure r.1

def freshVma (first last : ℕ) (permission : MapPermission) (mapType : MapType) (vmaType : VmaType)
    (handler : Option PageFaultHandler) (file : Option BackenFile) : VirtMemoryAddr :=
  ⟨⟨∅, file⟩, pageDown first, pageUp last, permission, vmaType, mapType, handler⟩

def View.put (w : View) (vma : VirtMemoryAddr) : View :=
  ⟨w.areas.insert vma.startVaddr vma, w.pte⟩

structure PushEffect (vma : VirtMemoryAddr) (pages : BTreeMap Page) (w w' : View) : Prop where
  keys : ∀ v : ℕ, pages[v]? ≠ none ↔ vma.startVaddr / 4096 ≤ v ∧ v < vma.endVaddr / 4096
  unmapped : ∀ v, vma.startVaddr / 4096 ≤ v → v < vma.endVaddr / 4096 → w.pte v = none
  result : w' = ⟨w.areas.insert vma.startVaddr (withPages vma pages),
    overlay w.pte pages (pteFlagsFrom vma.mapPermission)⟩

structure ExpandEffect (first last key : ℕ) (vma : VirtMemoryAddr) (w w' : View) : Prop where
  found : w.areas[key]? = some vma
  ends : vma.endVaddr = first
  clear : ∀ (k : ℕ) (v : VirtMemoryAddr), w.areas[k]? = some v →
    v.endVaddr = first ∨ ¬ Overlaps v first last
  result : w' = ⟨w.areas.insert key (vma.expand last), w.pte⟩

def findVm (areas : VmaRange) (vaddr : ℕ) : Option (ℕ × VirtMemoryAddr) :=
  areas.toList.find? fun entry => entry.2.isContain vaddr

structure FaultEffect (vaddr key : ℕ) (vma : VirtMemoryAddr) (page : Page) (w w' : View) :
    Prop where
  found : findVm w.areas vaddr = some (key, vma)
  accepted : checkUserVa vaddr = true
  unmapped : w.pte (vaddr / 4096) = none
  result : ∃ flags, w' = ⟨w.areas.insert key (withPage vma (vaddr / 4096) page),
    Function.update w.pte (vaddr / 4096) (some (mappedWord page.ppn flags))⟩

def Effect : SpaceOp → View → View → Prop
  | .push first last permission mapType vmaType handler _ _, w, w' =>
    checkUserVa first = true ∧ checkUserVa last = true ∧
      ∃ pages, PushEffect (freshVma first last permission mapType vmaType handler none) pages w w'
  | .mmapAnywhere hint len permission mapType handler file, w, w' =>
    (VmaRange.findAnywhere w.areas hint len = none ∧ w' = w) ∨
      ∃ a, VmaRange.findAnywhere w.areas hint len = some a ∧ checkUserVa a = true ∧
        checkUserVa (wrappingAdd a len) = true ∧
        w' = View.put w (freshVma a (wrappingAdd a len) permission mapType .mmap handler file)
  | .mmapFixed first last permission mapType handler file, w, w' =>
    w.UnmapReady first last ∧ checkUserVa first = true ∧ checkUserVa last = true ∧
      w' = View.put (w.unmap first last)
        (freshVma first last permission mapType .mmap handler file)
  | .munmap first last, w, w' => w.UnmapReady first last ∧ w' = w.unmap first last
  | .mprotect first last flags, w, w' =>
    ProtectRounds first last flags w (overlapKeys w.areas first last) ∧
      w' = View.protect w first last flags
  | .expand first last, w, w' => w' = w ∨ ∃ key vma, ExpandEffect first last key vma w w'
  | .fault vaddr, w, w' => w' = w ∨ ∃ key vma page, FaultEffect vaddr key vma page w w'

section Ownership

/-- The address space owns its pages and nothing is shared copy-on-write. -/
structure Owned (root : ℕ) (K : ℕ → Prop) (ms : MemorySet) (m : Machine) : Prop where
  space : ∃ ext, Space m ms.pt root K (areasHeld ms.areas) ext
  noCow : ms.cowManager.pageManager = ∅

/-- What the refinement needs of the arguments: `push` is for framed segments, and a page
number is one of an address. -/
def SpaceOp.Regular (op : SpaceOp) (areas : VmaRange) : Prop :=
  match op with
  | .push _ _ _ mapType _ _ _ _ => mapType = .framed
  | .mprotect _ _ _ => AllNumbered areas
  | _ => True

variable {m : Machine} {ms : MemorySet} {ext : ℕ → ℕ}

def msView (ms : MemorySet) (m : Machine) (root : ℕ) : View := viewOf ms.areas m root

/-- An operation keeps the ownership, and its effect on the view is `R`. -/
def Keeps (m : Machine) (ms : MemorySet) (root : ℕ) (K : ℕ → Prop) (R : View → View → Prop)
    (ms' : MemorySet) (m' : Machine) : Prop :=
  Owned root K ms' m' ∧ ms'.heapEnd = ms.heapEnd ∧ R (msView ms m root) (msView ms' m' root)

theorem new_holds (first last : ℕ) (permission : MapPermission) (mapType : MapType)
    (vmaType : VmaType) (handler : Option PageFaultHandler) :
    Holds (VirtMemoryAddr.new first last permission mapType vmaType handler) m
      (fun r m' => r = freshVma first last permission mapType vmaType handler none ∧ m = m' ∧
        checkUserVa first = true ∧ checkUserVa last = true)
      (fun _ _ => ¬ (checkUserVa first = true ∧ checkUserVa last = true)) := by
  refine checked_bind (alignDown_eq first m) And.left fun hfirst => ?_
  refine checked_bind (alignUp_eq last m) And.right fun hlast => ?_
  exact holds_pure ⟨rfl,rfl,hfirst,hlast⟩

theorem pushNoMap_space (own : Owned root K ms m) (vma : VirtMemoryAddr)
    (hempty : vma.pma.pageManager = ∅) :
    Holds (ms.pushNoMap vma) m
      (fun ms' m' => Keeps m ms root K (fun w w' => w' = View.put w vma) ms' m' ∧
        ms' = { ms with areas := ms.areas.insert vma.startVaddr vma })
      (Never Panic Machine) := by
  obtain ⟨⟨ext,s⟩,hcow⟩ := own
  have s' : Space m ms.pt root K (fun p => 0 + (areasHeld ms.areas p + vmaHeld vma p)) ext :=
    s.held_congr fun p => by rw [vmaHeld_empty hempty p]; omega
  refine Holds.bind (insertSegment_space (h := fun _ => 0) ms.areas vma.startVaddr vma s') ?_
  rintro _ m₁ ⟨rfl,s₁,hpte,-⟩
  refine holds_pure ⟨⟨⟨⟨ext,?_⟩,hcow⟩,rfl,?_⟩,rfl⟩
  · refine s₁.held_congr fun p => ?_
    rw [Nat.zero_add]
  · change (⟨_,pteAt m₁ root⟩ : View) = ⟨_,pteAt m root⟩
    rw [hpte]
    rfl

theorem withFile_fresh (first last : ℕ) (permission : MapPermission) (mapType : MapType)
    (vmaType : VmaType) (handler : Option PageFaultHandler) (file : Option BackenFile) :
    MemorySet.withFile (freshVma first last permission mapType vmaType handler none) file =
      freshVma first last permission mapType vmaType handler file := by
  cases file <;> rfl

section

variable (own : Owned root K ms m) (first last : ℕ)
include own

theorem mmap_space (permission : MapPermission)
    (mapType : MapType) (vmaType : VmaType) (handler : Option PageFaultHandler)
    (file : Option BackenFile) :
    Holds (ms.mmap (freshVma first last permission mapType vmaType handler none) file) m
      (fun r m' => r.2 = some (pageDown first) ∧
        Keeps m ms root K (fun w w' =>
          w' = View.put w (freshVma first last permission mapType vmaType handler file)) r.1 m')
      (Never Panic Machine) := by
  unfold MemorySet.mmap
  rw [withFile_fresh]
  refine Holds.bind (pushNoMap_space own _ rfl) ?_
  rintro ms' m' ⟨keeps,-⟩
  exact holds_pure ⟨rfl,keeps⟩

theorem munmap_space : Holds (ms.munmap first last) m
      (Keeps m ms root K (Effect (.munmap first last)))
      (fun _ _ => ¬ (msView ms m root).UnmapReady first last) := by
  obtain ⟨⟨ext,s⟩,hcow⟩ := own
  refine Holds.bind (unmap_space (h := fun _ => 0) ms.areas first last
    (s.held_congr fun p => by omega)) ?_
  rintro areas m' ⟨hready,hview,s',-⟩
  refine holds_pure ⟨⟨⟨ext,?_⟩,hcow⟩,rfl,hready,hview⟩
  refine s'.held_congr fun p => ?_
  rw [Nat.zero_add]

theorem allocVmaFixed_space
    (permission : MapPermission) (mapType : MapType) (handler : Option PageFaultHandler) :
    Holds (ms.allocVmaFixed first last permission mapType handler) m
      (fun r m' => r.2 = some (freshVma first last permission mapType .mmap handler none) ∧
        checkUserVa first = true ∧ checkUserVa last = true ∧
        Keeps m ms root K (Effect (.munmap first last)) r.1 m')
      (fun _ _ => ¬ ((msView ms m root).UnmapReady first last ∧ checkUserVa first = true ∧
        checkUserVa last = true)) := by
  unfold MemorySet.allocVmaFixed VmaRange.findFixed
  simp only [bind_assoc,pure_bind]
  have unmapped := munmap_space own first last
  obtain ⟨⟨ext,s⟩,hcow⟩ := own
  refine Holds.bind (R := fun areas m' => Keeps m ms root K (Effect (.munmap first last))
    { ms with areas := areas } m') ?_ ?_
  · refine (unmap_space (h := fun _ => 0) ms.areas first last
      (s.held_congr fun p => by omega)).mono ?_ fun _ _ hf hr => hf hr.1
    rintro areas m' ⟨hready,hview,s',-⟩
    refine ⟨⟨⟨ext,s'.held_congr fun p => ?_⟩,hcow⟩,rfl,hready,hview⟩
    rw [Nat.zero_add]
  · intro areas m' keeps
    refine ((new_holds first last permission mapType .mmap handler).onError
      fun _ _ hf hr => hf hr.2).bind ?_
    rintro _ _ ⟨rfl,rfl,hfirst,hlast⟩
    exact holds_pure ⟨rfl,hfirst,hlast,keeps⟩

end

theorem allocVmaAnywhere_holds (hint len : ℕ) (permission : MapPermission) (mapType : MapType)
    (handler : Option PageFaultHandler) :
    Holds (ms.allocVmaAnywhere hint len permission mapType handler) m
      (fun r m' => m = m' ∧ ((VmaRange.findAnywhere ms.areas hint len = none ∧ r = none) ∨
        ∃ a, VmaRange.findAnywhere ms.areas hint len = some a ∧ checkUserVa a = true ∧
          checkUserVa (wrappingAdd a len) = true ∧
          r = some (freshVma a (wrappingAdd a len) permission mapType .mmap handler none)))
      (fun _ _ => ∃ a, VmaRange.findAnywhere ms.areas hint len = some a ∧
        ¬ (checkUserVa a = true ∧ checkUserVa (wrappingAdd a len) = true)) := by
  unfold MemorySet.allocVmaAnywhere
  cases VmaRange.findAnywhere ms.areas hint len with
  | none => exact holds_pure ⟨rfl,.inl ⟨rfl,rfl⟩⟩
  | some a =>
    dsimp only
    refine ((new_holds a (wrappingAdd a len) permission mapType .mmap handler).onError
      fun _ _ hf => ⟨a,rfl,hf⟩).bind ?_
    rintro _ _ ⟨rfl,rfl,hfirst,hlast⟩
    exact holds_pure ⟨rfl,.inr ⟨a,rfl,hfirst,hlast,rfl⟩⟩

theorem mprotect_keeps (own : Owned root K ms m) (hnum : AllNumbered ms.areas) (first last : ℕ)
    (flags : MapPermission) :
    Holds (ms.mprotect first last flags) m
      (Keeps m ms root K (Effect (.mprotect first last flags))) (fun _ _ => True) := by
  obtain ⟨⟨ext,s⟩,hcow⟩ := own
  refine Holds.bind (mprotect_space (h := fun _ => 0) flags ms.areas hnum
    (s.held_congr fun p => by omega)).orAny ?_
  rintro areas m' ⟨hready,hview,s',-⟩
  refine holds_pure ⟨⟨⟨ext,s'.held_congr fun p => ?_⟩,hcow⟩,rfl,
    protectRounds_of_modify flags _ _ hready,hview⟩
  rw [Nat.zero_add]

theorem expandLoop_holds (first last : ℕ) : ∀ (l : List (ℕ × VirtMemoryAddr)) (heapVm : Option ℕ),
    Holds (VmaRange.expandLoop first last heapVm l) m
      (fun r m' => m = m' ∧ ∀ key, r = .ok (some key) →
        (heapVm = some key ∨ ∃ vma, (key, vma) ∈ l ∧ vma.endVaddr = first) ∧
        ∀ e ∈ l, e.2.endVaddr = first ∨ ¬ Overlaps e.2 first last)
      (fun _ _ => ¬ first ≤ last) := by
  intro l
  induction l with
  | nil =>
    intro heapVm
    refine holds_pure ⟨rfl,fun key hk => ⟨.inl ?_,fun e he => by cases he⟩⟩
    cases hk
    rfl
  | cons e l ih =>
    intro heapVm
    obtain ⟨key,vma⟩ := e
    unfold VmaRange.expandLoop
    by_cases hend : vma.endVaddr = first
    · rw [if_pos hend]
      refine (ih (some key)).imp ?_
      rintro r m' ⟨hm,hr⟩
      refine ⟨hm,fun key' hk => ?_⟩
      obtain ⟨hfrom,hall⟩ := hr key' hk
      refine ⟨.inr ?_,fun e he => ?_⟩
      · rcases hfrom with hkey | ⟨v,hv,hve⟩
        · cases hkey
          exact ⟨vma,List.mem_cons_self,hend⟩
        · exact ⟨v,List.mem_cons_of_mem _ hv,hve⟩
      · rcases List.mem_cons.mp he with rfl | he
        · exact .inl hend
        · exact hall e he
    · rw [if_neg hend]
      refine (isOverlap_holds vma first last).bind ?_
      rintro _ _ ⟨rfl,rfl,hle⟩
      by_cases ho : Overlaps vma first last
      · rw [decide_eq_true ho,if_pos rfl]
        exact holds_pure ⟨rfl,fun key hk => by cases hk⟩
      · rw [decide_eq_false ho,if_neg Bool.false_ne_true]
        refine (ih heapVm).imp ?_
        rintro r m' ⟨hm,hr⟩
        refine ⟨hm,fun key' hk => ?_⟩
        obtain ⟨hfrom,hall⟩ := hr key' hk
        refine ⟨hfrom.imp_right fun ⟨v,hv,hve⟩ => ⟨v,List.mem_cons_of_mem _ hv,hve⟩,
          fun e he => ?_⟩
        rcases List.mem_cons.mp he with rfl | he
        · exact .inr ho
        · exact hall e he

theorem areasHeld_congr {areas : VmaRange} {key : ℕ} {vma vma' : VirtMemoryAddr}
    (hk : areas[key]? = some vma) (hp : vma'.pma.pageManager = vma.pma.pageManager) (p : ℕ) :
    areasHeld (areas.insert key vma') p = areasHeld areas p := by
  have hi := areasHeld_replace hk vma' p
  have hv : vmaHeld vma' p = vmaHeld vma p := by rw [vmaHeld,vmaHeld,hp]
  omega

theorem expand_space (own : Owned root K ms m) (first last : ℕ) :
    Holds (ms.expand first last) m
      (fun r m' => Keeps m ms root K (Effect (.expand first last)) r.1 m' ∧ m = m' ∧
        ms.pt = r.1.pt)
      (fun _ _ => ¬ first ≤ last) := by
  unfold MemorySet.expand VmaRange.expand
  simp only [bind_assoc]
  refine (expandLoop_holds first last ms.areas.toList none).bind ?_
  rintro r _ ⟨rfl,hr⟩
  have same : Keeps m ms root K (Effect (.expand first last)) ms m := ⟨own,rfl,.inl rfl⟩
  cases r with
  | error e => exact holds_pure ⟨same,rfl,rfl⟩
  | ok o =>
    cases o with
    | none => exact holds_pure ⟨same,rfl,rfl⟩
    | some key =>
      obtain ⟨hfrom,hall⟩ := hr key rfl
      obtain ⟨vma,hmem,hend⟩ := hfrom.resolve_left fun hc => by cases hc
      have hk : ms.areas[key]? = some vma := mem_toList.mp hmem
      dsimp only
      rw [hk]
      obtain ⟨⟨ext,s⟩,hcow⟩ := own
      refine holds_pure ⟨⟨⟨⟨ext,s.held_congr fun p => ?_⟩,hcow⟩,rfl,.inr ⟨key,vma,hk,hend,
        fun k v hv => hall (k, v) (mem_toList.mpr hv),rfl⟩⟩,rfl,rfl⟩
      have hp : (vma.expand last).pma.pageManager = vma.pma.pageManager := rfl
      exact le_of_eq (areasHeld_congr hk hp p)

theorem handlePageFault_space (own : Owned root K ms m) (vaddr : ℕ) :
    Holds (ms.handlePageFault vaddr) m
      (fun r m' => Keeps m ms root K (Effect (.fault vaddr)) r.1 m') (fun _ _ => True) := by
  unfold MemorySet.handlePageFault
  have same : Keeps m ms root K (Effect (.fault vaddr)) ms m := ⟨own,rfl,.inl rfl⟩
  obtain ⟨⟨ext,s⟩,hcow⟩ := own
  cases hf : ms.findVmByVaddr vaddr with
  | none => exact holds_pure same
  | some kv =>
    obtain ⟨key,vma⟩ := kv
    have hk : ms.areas[key]? = some vma := mem_toList.mp (List.mem_of_find?_eq_some hf)
    have hcow' : ms.cowManager.isInCow vaddr m = .ok false m := by
      unfold CowManager.isInCow
      rw [hcow]
      rfl
    have hheld : ∀ p, areasHeld ms.areas p = areasHeld (ms.areas.erase key) p + vmaHeld vma p := by
      intro p
      have he := total_erase (fun v => vmaHeld v p) ms.areas key
      rw [weightAt_some hk] at he
      unfold areasHeld
      omega
    dsimp only
    unfold Holds
    rw [bind_ok hcow',if_neg Bool.false_ne_true]
    unfold VirtMemoryAddr.handlePageFault
    rw [bind_assoc]
    have s' : Space m ms.pt root K
        (fun p => areasHeld (ms.areas.erase key) p + vmaHeld vma p) ext :=
      s.held_congr fun p => le_of_eq (hheld p).symm
    refine Holds.bind (runHandler_space vma vaddr s') ?_
    rintro ⟨pma,pt⟩ m' (⟨-,hr,rfl⟩ | ⟨handler,-,hva,hnone,page,ext',hr,s₁,hpte⟩)
    · -- no handler: the segment is put back as it was
      cases hr
      refine holds_pure ?_
      rw [insert_self hk]
      exact same
    · cases hr
      refine holds_pure ⟨⟨⟨ext',s₁.held_congr fun p => ?_⟩,hcow⟩,rfl,
        .inr ⟨key,vma,page,hf,hva,hnone,faultFlags vma handler,?_⟩⟩
      · have hi := areasHeld_replace hk (withPage vma (vaddr / 4096) page) p
        have he := hheld p
        change areasHeld (ms.areas.insert key (withPage vma (vaddr / 4096) page)) p ≤
          areasHeld (ms.areas.erase key) p + vmaHeld (withPage vma (vaddr / 4096) page) p
        omega
      · change (⟨_,pteAt m' root⟩ : View) = ⟨_,Function.update (pteAt m root) _ _⟩
        rw [hpte]
        rfl

theorem push_keeps (own : Owned root K ms m) (first last : ℕ) (permission : MapPermission)
    (vmaType : VmaType) (handler : Option PageFaultHandler) (data : Option (List UInt8))
    (offset : ℕ) :
    Holds ((SpaceOp.push first last permission .framed vmaType handler data offset).exec ms) m
      (Keeps m ms root K
        (Effect (.push first last permission .framed vmaType handler data offset)))
      (fun _ _ => True) := by
  obtain ⟨⟨ext,s⟩,hcow⟩ := own
  refine (new_holds first last permission .framed vmaType handler).orAny.bind ?_
  rintro _ _ ⟨rfl,rfl,hfirst,hlast⟩
  refine (push_space (freshVma first last permission .framed vmaType handler none) rfl rfl data
    offset s).imp ?_
  rintro ms' m' ⟨pages,done⟩
  have hset := done.set
  refine ⟨⟨⟨ext,done.space⟩,?_⟩,?_,hfirst,hlast,pages,done.keys,done.unmapped,?_⟩
  · rw [hset]
    exact hcow
  · rw [hset]
  · unfold msView viewOf
    rw [done.pte,hset]

end Ownership

section Steps

theorem exec_effect {m : Machine} {ms : MemorySet} (own : Owned root K ms m) (op : SpaceOp)
    (regular : op.Regular ms.areas) :
    Holds (op.exec ms) m (Keeps m ms root K (Effect op)) (fun _ _ => True) := by
  cases op with
  | push first last permission mapType vmaType handler data offset =>
    rw [regular]
    exact push_keeps own first last permission vmaType handler data offset
  | mmapAnywhere hint len permission mapType handler file =>
    refine (allocVmaAnywhere_holds hint len permission mapType handler).orAny.bind ?_
    rintro r _ ⟨rfl,⟨hnone,rfl⟩ | ⟨a,ha,hfirst,hlast,rfl⟩⟩
    · exact holds_pure ⟨own,rfl,.inl ⟨hnone,rfl⟩⟩
    · refine (mmap_space own a (wrappingAdd a len) permission mapType .mmap handler
        file).weaken.bind ?_
      rintro r m' ⟨-,own',hheap,hview⟩
      exact holds_pure ⟨own',hheap,.inr ⟨a,ha,hfirst,hlast,hview⟩⟩
  | mmapFixed first last permission mapType handler file =>
    refine (allocVmaFixed_space own first last permission mapType handler).orAny.bind ?_
    rintro ⟨ms₁,_⟩ m₁ ⟨rfl,hfirst,hlast,own₁,hheap₁,hready,hview₁⟩
    refine (mmap_space own₁ first last permission mapType .mmap handler file).weaken.bind ?_
    rintro r m' ⟨-,own',hheap,hview⟩
    rw [hview₁] at hview
    exact holds_pure ⟨own',hheap.trans hheap₁,hready,hfirst,hlast,hview⟩
  | munmap first last => exact (munmap_space own first last).orAny
  | mprotect first last flags => exact mprotect_keeps own regular first last flags
  | expand first last =>
    refine (expand_space own first last).orAny.bind ?_
    rintro r m' ⟨keeps,-⟩
    exact holds_pure keeps
  | fault vaddr =>
    refine (handlePageFault_space own vaddr).bind ?_
    intro r m' keeps
    exact holds_pure keeps

end Steps

end DuckOs.SpaceOperations
