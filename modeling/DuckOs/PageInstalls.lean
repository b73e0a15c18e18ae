import DuckOs.AreaUnmap
import DuckOs.MemorySetModel

namespace DuckOs.PageInstalls
open ExecutionRules AddressModel PermissionFlags KernelMachine PageTableModel PageTableTree Function
open PageTableOperations PageModel VirtMemoryModel MemorySetModel
open FrameOwnership SegmentViews SegmentUnmap
open OrderedMaps

variable {page : Page} {F K : ℕ → Prop} {m : Machine} {pt : PageTable} {root : ℕ} {h ext : ℕ → ℕ}

section Handles

theorem holds_unwrap {α β : Type} {reason : Panic} {o : Option α} {f : α → Kernel β}
    {Q : β → Machine → Prop} (hf : ∀ a, o = some a → Holds (f a) m Q fun _ _ => True) :
    Holds (unwrap reason o >>= f) m Q fun _ _ => True := by
  cases o with
  | none => exact holds_throw trivial
  | some a => exact hf a rfl

theorem arcClone_space (s : Space m pt root K h ext) (hp : 0 < m.strong page.ppn) :
    Holds (arcClone page) m
      (fun r m' => r = page ∧ Space m' pt root K (fun p => h p + single page p) ext ∧
        pteAt m' root = pteAt m root ∧ m' = { m with strong := m'.strong })
      (Never Panic Machine) := by
  exact holds_ok rfl ⟨rfl,s.counted page (Nat.lt_succ_self _) (s.live page.ppn hp),
    pteAt_rows s.tree fun _ _ => rfl,rfl⟩

theorem dropReplaced_space {vpn : ℕ} {pages : BTreeMap Page}
    (s : Space m pt root K (fun p => h p + (pagesHeld pages p + single page p)) ext) :
    Holds (PhysMemoryAddr.dropReplaced pages[vpn]?) m
      (fun _ m' => Space m' pt root K (fun p => h p + pagesHeld (pages.insert vpn page) p) ext ∧
        HandleStep m m' root)
      (Never Panic Machine) := by
  have hins := fun p => total_insert (fun page => single page p) pages vpn page
  cases hv : pages[vpn]? with
  | none =>
    refine holds_pure ⟨s.held_congr fun p => ?_,HandleStep.refl m root⟩
    have hi := hins p
    unfold pagesHeld
    omega
  | some old =>
    refine arcDrop_space (s.held_congr fun p => ?_)
    have hi := hins p
    rw [weightAt_some hv] at hi
    unfold pagesHeld
    omega

theorem pushPmaPage_space (pma : PhysMemoryAddr) (vpn : ℕ) (page : Page)
    (s : Space m pt root K (fun p => h p + (pagesHeld pma.pageManager p + single page p)) ext) :
    Holds (pma.pushPmaPage vpn page) m
      (fun r m' => r = { pma with pageManager := pma.pageManager.insert vpn page } ∧
        Space m' pt root K (fun p => h p + pagesHeld (pma.pageManager.insert vpn page) p) ext ∧
        HandleStep m m' root)
      (Never Panic Machine) :=
  (dropReplaced_space s).bind fun _ _ done => holds_pure ⟨rfl,done⟩

theorem activate_space (s : Space m pt root K h ext) :
    Holds (PageTable.activate pt) m
      (fun _ m' => Space m' pt root K h ext ∧ pteAt m' root = pteAt m root ∧
        m' = { m with satp := m'.satp })
      (Never Panic Machine) := by
  have hram : InRam root := s.tree.inRam root s.tree.root_mem
  have hppn : (physToPpn pt.rootPaddr : Kernel ℕ) m = .ok (root * 4096 / 4096) m := by
    rw [physToPpn_eq,s.rootPaddr,checkPaddr_frame hram,if_pos rfl]
  have htoken : PageTable.token pt m = .ok ((8 <<< 60) ||| (root * 4096 / 4096)) m := by
    unfold PageTable.token PageTable.rootPpn
    rw [bind_ok hppn]
    rfl
  unfold PageTable.activate Holds
  rw [bind_ok htoken]
  have same : ∀ g, TableOf pt K g →
      ({ m with satp := (8 <<< 60) ||| (root * 4096 / 4096) } : Machine).ram g = m.ram g :=
    fun _ _ => rfl
  obtain ⟨s',hpte⟩ := s.dataWrite same rfl rfl rfl
  exact ⟨s',hpte,rfl⟩

end Handles

section Loading

structure PageWrite (m m' : Machine) (F : ℕ → Prop) : Prop where
  rest : m' = { m with ram := m'.ram, dataState := m'.dataState }
  data : ∀ g, ¬ F g → m'.ram g = m.ram g

theorem PageWrite.refl (m : Machine) (F : ℕ → Prop) : PageWrite m m F := ⟨rfl,fun _ _ => rfl⟩

theorem PageWrite.trans {m₁ m₂ m₃ : Machine} (a : PageWrite m₁ m₂ F) (b : PageWrite m₂ m₃ F) :
    PageWrite m₁ m₃ F := by
  refine ⟨?_,fun g hg => (b.data g hg).trans (a.data g hg)⟩
  rw [b.rest,a.rest]

theorem PageWrite.space {m' : Machine} (w : PageWrite m m' F) (hF : ∀ f, F f → 0 < m.strong f)
    (s : Space m pt root K h ext) : Space m' pt root K h ext ∧ pteAt m' root = pteAt m root := by
  refine s.dataWrite (fun g hg => w.data g fun hf => ?_) ?_ ?_ ?_
  · exact (s.live g (hF g hf)).2.1 hg
  · rw [w.rest]
  · rw [w.rest]
  · rw [w.rest]

theorem readSector_write (hp : InRam page.ppn) (info : DiskFileInfo) (idx : ℕ) (state : DataState) :
    Holds (Page.readSector page info idx state) m (fun _ m' => PageWrite m m' (· = page.ppn))
      (fun _ _ => True) := by
  refine holds_get ?_
  refine holds_unwrap fun inode _ => ?_
  refine holds_bind_ok (byteArray_frame hp m) ?_
  refine holds_unwrap fun bytes _ => ?_
  exact ⟨rfl,fun g hg => update_of_ne hg _ _⟩

theorem loadSector_write (hp : InRam page.ppn) (info : DiskFileInfo) (idx : ℕ) :
    Holds (Page.loadSector page info idx) m (fun _ m' => PageWrite m m' (· = page.ppn))
      (fun _ _ => True) := by
  refine holds_get ?_
  cases m.dataState page.ppn idx with
  | empty => exact readSector_write hp info idx .sync
  | sync => exact holds_pure (PageWrite.refl m _)
  | dirty => exact holds_pure (PageWrite.refl m _)

theorem load_write (hp : InRam page.ppn) :
    Holds (Page.load page) m (fun _ m' => PageWrite m m' (· = page.ppn)) (fun _ _ => True) := by
  unfold Page.load
  cases page.diskFile with
  | none => exact holds_throw trivial
  | some info =>
    refine holds_foldlM (fun _ _ m' => PageWrite m m' (· = page.ppn)) ?_ _ () m (PageWrite.refl m _)
    intro idx _ _ m' done
    exact (loadSector_write hp info idx).imp fun _ _ step => done.trans step

end Loading

section Cache

def Gained (m : Machine) (pt : PageTable) (root : ℕ) (K : ℕ → Prop) (h : ℕ → ℕ) (page : Page)
    (m' : Machine) : Prop :=
  ∃ ext', Space m' pt root K (fun p => h p + single page p) ext' ∧
    pteAt m' root = pteAt m root

def putCached (m : Machine) (cache key : ℕ) (page : Page) : Machine :=
  { m with
    pageCaches := update m.pageCaches cache ((m.pageCaches cache).insert key page) }

theorem putCached_space (s : Space m pt root K (fun p => h p + single page p) ext) (cache key : ℕ) :
    Space (putCached m cache key page) pt root K h (fun p => ext p + single page p) := by
  refine ⟨s.rootPaddr,tree_rows s.tree (fun _ _ => rfl) s.tree.notFree s.tree.freeInRam,
    fun p => ?_,s.live,?_⟩
  · have hc := s.counts p
    change h p + (ext p + single page p) ≤ m.strong p
    omega
  · intro c k q hq
    change (update m.pageCaches cache ((m.pageCaches cache).insert key page) c)[k]? = _
      at hq
    by_cases hc : c = cache
    · rw [hc,update_self,getElem?_insert] at hq
      split at hq
      · cases hq
        rw [single_self]
        omega
      · have := s.caches _ _ _ hq
        omega
    · rw [update_of_ne hc] at hq
      have := s.caches _ _ _ hq
      omega

section

variable (s : Space m pt root K h ext)
include s

theorem newDiskPage_space (per : PagePermission) (inode num : ℕ) :
    Holds (Page.newDiskPage per inode num >>= arcNew) m
      (fun page m' => 0 < m'.strong page.ppn ∧
        Space m' pt root K (fun p => h p + single page p) ext ∧ pteAt m' root = pteAt m root)
      (fun _ _ => True) := by
  cases ha : m.frameAllocator.alloc with
  | none => exact holds_error (bind_error (bind_error (allocFrameUnwrap_none ha))) trivial
  | some xr =>
    obtain ⟨x,rest⟩ := xr
    have hx : InRam x := s.tree.freeInRam x (alloc_mem ha)
    have hnew : Page.newDiskPage per inode num m = .ok ⟨x,per,some ⟨inode,num⟩⟩
        { takeFrame m x rest with
          dataState := update m.dataState x fun _ => .empty } :=
      bind_ok (allocFrameUnwrap_some ha hx)
    have others : ∀ g, g ≠ x → ({ takeFrame m x rest with
        dataState := update m.dataState x fun _ => .empty } : Machine).ram g = m.ram g :=
      fun g hg => takeFrame_ram_ne m rest hg
    obtain ⟨s₁,hpte₁,hzero,live⟩ := s.allocated ha others rfl rfl rfl
    refine holds_bind_ok hnew ⟨?_,s₁.counted ⟨x,per,some ⟨inode,num⟩⟩
      (Nat.lt_one_iff.mpr hzero) live,(pteAt_rows s₁.tree fun _ _ => rfl).trans hpte₁⟩
    change 0 < update m.strong x 1 x
    rw [update_self]
    omega

theorem findPageFromDisk_space (cache key inode : ℕ) :
    Holds (PageCache.findPageFromDisk cache key inode) m
      (fun r m' => ∃ page, r = some page ∧ Gained m pt root K h page m') (fun _ _ => True) := by
  unfold PageCache.findPageFromDisk
  rw [← bind_assoc]
  refine (newDiskPage_space s _ _ _).bind ?_
  rintro page m₁ ⟨hlive,s₁,hpte₁⟩
  refine (arcClone_space s₁ hlive).weaken.bind ?_
  rintro _ m₂ ⟨rfl,s₂,hpte₂,-⟩
  refine ⟨_,rfl,_,putCached_space s₂ cache key,?_⟩
  rw [← hpte₁,← hpte₂]
  exact pteAt_rows s₂.tree fun _ _ => rfl

theorem findPageAndCreate_space (cache offset : ℕ) (inode : Option ℕ) :
    Holds (PageCache.findPageAndCreate cache offset inode) m
      (fun r m' => ∀ page, r = some page → Gained m pt root K h page m') (fun _ _ => True) := by
  refine holds_get ?_
  cases hc : (m.pageCaches cache)[PageCache.toOffset offset]? with
  | some page =>
    have hlive : 0 < m.strong page.ppn :=
      lt_of_lt_of_le (s.caches _ _ _ hc) ((Nat.le_add_left _ _).trans (s.counts page.ppn))
    dsimp only
    rw [map_eq_pure_bind]
    refine (arcClone_space s hlive).weaken.bind ?_
    rintro _ m' ⟨rfl,s',hpte,-⟩
    refine holds_pure fun page hp => ?_
    cases hp
    exact ⟨ext,s',hpte⟩
  | none =>
    cases inode with
    | none => exact holds_pure fun page hp => by cases hp
    | some inode =>
      refine (findPageFromDisk_space s cache _ inode).imp ?_
      rintro _ m' ⟨page,rfl,gained⟩ page' hp
      cases hp
      exact gained

theorem cachedPage_space (file : BackenFile) (vaddr startVa : ℕ) :
    Holds (cachedPage file vaddr startVa) m (Gained m pt root K h) (fun _ _ => True) := by
  refine holds_unwrap fun info _ => ?_
  refine holds_unwrap fun cache _ => ?_
  refine (findPageAndCreate_space s cache _ _).bind ?_
  intro found m₁ hfound
  refine holds_unwrap fun page hp => ?_
  obtain ⟨ext',s₁,hpte₁⟩ := hfound page hp
  have hlive : 0 < m₁.strong page.ppn := by
    have hc := s₁.counts page.ppn
    rw [single_self] at hc
    omega
  refine (load_write (s₁.live _ hlive).2.2).bind ?_
  intro _ m₂ written
  obtain ⟨s₂,hpte₂⟩ := written.space (fun f hf => hf ▸ hlive) s₁
  exact holds_pure ⟨ext',s₂,hpte₂.trans hpte₁⟩

end

end Cache

section Handlers

structure Installed (m : Machine) (root : ℕ) (K : ℕ → Prop) (h : ℕ → ℕ) (pma : PhysMemoryAddr)
    (vaddr : ℕ) (flag : PTEFlags) (r : PhysMemoryAddr × PageTable) (m' : Machine) : Prop where
  accepted : checkUserVa vaddr = true
  unmapped : pteAt m root (vaddr / 4096) = none
  gained : ∃ page ext', r.1 = { pma with
      pageManager := pma.pageManager.insert (vaddr / 4096) page } ∧
    Space m' r.2 root K (fun p => h p + pagesHeld r.1.pageManager p) ext' ∧
    pteAt m' root = update (pteAt m root) (vaddr / 4096)
      (some (mappedWord page.ppn flag))

theorem installPage_space {m₀ : Machine} (pma : PhysMemoryAddr) (vaddr : ℕ) (page : Page)
    (flag : PTEFlags)
    (s : Space m pt root K (fun p => (h p + pagesHeld pma.pageManager p) + single page p) ext)
    (same : pteAt m root = pteAt m₀ root) :
    Holds (installPage pma vaddr page flag pt) m (Installed m₀ root K h pma vaddr flag)
      (fun _ _ => True) := by
  refine (virtToVpn_holds vaddr).orAny.bind ?_
  rintro _ _ ⟨rfl,rfl,hva⟩
  have s' : Space m pt root K (fun p => h p + (pagesHeld pma.pageManager p + single page p)) ext :=
    s.held_congr fun p => by omega
  refine (pushPmaPage_space pma _ page s').weaken.bind ?_
  rintro _ m₁ ⟨rfl,s₁,hstep⟩
  have hvpn : vaddr / 4096 < 2 ^ 52 := by
    have := checkUserVa_lt hva
    omega
  refine (ptMapOne_space s₁ hvpn page.ppn flag).orAny.bind ?_
  rintro pt' m₂ ⟨-,hnone,s₂,hpte₂,-⟩
  refine (activate_space s₂).weaken.bind ?_
  rintro - m₃ ⟨s₃,hpte₃,-⟩
  rw [hstep.pte,same] at hnone
  refine holds_pure ⟨hva,hnone,page,ext,rfl,s₃,?_⟩
  rw [hpte₃,hpte₂,hstep.pte,same]

theorem installFresh_space (pma : PhysMemoryAddr) (vaddr : ℕ) (permission : MapPermission)
    (flag : PTEFlags) (s : Space m pt root K (fun p => h p + pagesHeld pma.pageManager p) ext) :
    Holds (installFresh pma vaddr permission flag pt) m (Installed m root K h pma vaddr flag)
      (fun _ _ => True) := by
  unfold installFresh
  rw [← bind_assoc]
  refine (pageNew_space s _).orAny.bind ?_
  rintro page m₁ ⟨s₁,hpte₁,-⟩
  exact installPage_space pma vaddr page flag s₁ hpte₁

def faultFlags (vma : VirtMemoryAddr) : PageFaultHandler → PTEFlags
  | .uStack => PTEFlags.W ||| PTEFlags.R ||| PTEFlags.U
  | .uHeap => PTEFlags.W ||| PTEFlags.R ||| PTEFlags.U ||| PTEFlags.X
  | .mmap => pteFlagsFrom vma.mapPermission
  | .cow => pteFlagsFrom vma.mapPermission

theorem runHandler_space (vma : VirtMemoryAddr) (vaddr : ℕ)
    (s : Space m pt root K (fun p => h p + vmaHeld vma p) ext) :
    Holds (VirtMemoryAddr.runHandler vma vaddr pt) m
      (fun r m' => (vma.pageFaultHandler = none ∧ r = (vma.pma, pt) ∧ m = m') ∨
        ∃ handler, vma.pageFaultHandler = some handler ∧
          Installed m root K h vma.pma vaddr (faultFlags vma handler) r m')
      (fun _ _ => True) := by
  unfold VirtMemoryAddr.runHandler
  cases hh : vma.pageFaultHandler with
  | none => exact holds_pure (.inl ⟨rfl,rfl,rfl⟩)
  | some handler =>
    cases handler with
    | uStack =>
      exact (installFresh_space vma.pma vaddr _ _ s).imp fun _ _ hi => .inr ⟨_,rfl,hi⟩
    | uHeap =>
      exact (installFresh_space vma.pma vaddr _ _ s).imp fun _ _ hi => .inr ⟨_,rfl,hi⟩
    | mmap =>
      unfold mmapHandler
      cases vma.pma.backenFile with
      | none =>
        exact (installFresh_space vma.pma vaddr _ _ s).imp fun _ _ hi => .inr ⟨_,rfl,hi⟩
      | some file =>
        refine (cachedPage_space s file vaddr vma.startVaddr).bind ?_
        rintro page m₁ ⟨ext',s₁,hpte₁⟩
        exact (installPage_space vma.pma vaddr page _ s₁ hpte₁).imp fun _ _ hi => .inr ⟨_,rfl,hi⟩
    | cow => exact holds_throw trivial

end Handlers

end DuckOs.PageInstalls
