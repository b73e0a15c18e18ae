import DuckOs.DiskPages

namespace DuckOs.PageCaches
open ExecutionRules AddressModel PermissionFlags KernelMachine PageTableTree PageModel DiskPages
  Function
open OrderedMaps

variable {x inode c : ℕ} {rest : FrameAllocator} {page : Page} {m m' : Machine} {node : Inode}
  {data : List UInt8} {view : ℕ → UInt8}

section Creation

variable {cache fileOffset : ℕ}

theorem toOffset_eq (fileOffset : ℕ) : PageCache.toOffset fileOffset = fileOffset / 4096 := by
  rw [PageCache.toOffset,Nat.shiftRight_eq_div_pow]
  rfl

def cloned (m : Machine) (page : Page) : Machine :=
  { m with strong := update m.strong page.ppn (m.strong page.ppn + 1) }

theorem findPageAndCreate_found (hfound : (m.pageCaches cache)[fileOffset / 4096]? = some page) :
    PageCache.findPageAndCreate cache fileOffset (some inode) m =
      .ok (some page) (cloned m page) := by
  unfold PageCache.findPageAndCreate
  rw [get_bind,toOffset_eq,hfound]
  rfl

def newPage (x inode p : ℕ) : Page := ⟨x, PagePermission.all, some ⟨inode, p⟩⟩

def created (m : Machine) (cache inode p x : ℕ) (rest : FrameAllocator) : Machine :=
  { takeFrame m x rest with
    dataState := update m.dataState x fun _ => .empty
    strong := update m.strong x 2
    pageCaches := update m.pageCaches cache
      ((m.pageCaches cache).insert p (newPage x inode p)) }

theorem findPageAndCreate_created
    (hnew : (m.pageCaches cache)[fileOffset / 4096]? = none)
    (halloc : m.frameAllocator.alloc = some (x, rest)) (hram : InRam x) :
    PageCache.findPageAndCreate cache fileOffset (some inode) m =
      .ok (some (newPage x inode (fileOffset / 4096)))
        (created m cache inode (fileOffset / 4096) x rest) := by
  unfold PageCache.findPageAndCreate
  rw [get_bind,toOffset_eq,hnew]
  unfold PageCache.findPageFromDisk Page.newDiskPage
  simp only [bind_assoc]
  rw [bind_ok (allocFrameUnwrap_some halloc hram)]
  have hstrong : update (update m.strong x 1) x
      (update m.strong x 1 x + 1) = update m.strong x 2 := by
    rw [update_self,update_idem]
  unfold created
  rw [← hstrong]
  rfl

theorem findPageAndCreate_exhausted (hnew : (m.pageCaches cache)[fileOffset / 4096]? = none)
    (halloc : m.frameAllocator.alloc = none) :
    PageCache.findPageAndCreate cache fileOffset (some inode) m = .error .outOfFrames m := by
  unfold PageCache.findPageAndCreate
  rw [get_bind,toOffset_eq,hnew]
  dsimp only
  unfold PageCache.findPageFromDisk Page.newDiskPage
  rw [bind_error (bind_error (allocFrameUnwrap_none halloc))]

end Creation

section Invariant

/-- Cached pages are in use and in frames of their own. -/
structure CacheInv (m : Machine) : Prop where
  freeInRam : ∀ f ∈ m.frameAllocator.free, InRam f
  live : ∀ (c p : ℕ) (page : Page), (m.pageCaches c)[p]? = some page →
    InRam page.ppn ∧ page.ppn ∉ m.frameAllocator.free ∧ 0 < m.strong page.ppn
  apart : ∀ (c p : ℕ) (page : Page) (c' p' : ℕ) (page' : Page),
    (m.pageCaches c)[p]? = some page → (m.pageCaches c')[p']? = some page' →
    page.ppn = page'.ppn → c = c' ∧ p = p'

def diskByte (m : Machine) (inode x : ℕ) : UInt8 :=
  writeBytes (fun _ => 0) (x % 4096 / 512 * 512)
    (sectorBytes m ⟨inode, x / 4096⟩ (x % 4096 / 512)) (x % 4096)

def imageOf (data : List UInt8) (p o : ℕ) : UInt8 := data.getD (p / 4096 + o % 512) 0

theorem sectorBytes_of_data {info : DiskFileInfo} (hnode : m.inodes info.inode = some node)
    (hread : ∀ offset len, node.read offset len = some ((data.drop offset).take len)) (idx : ℕ) :
    sectorBytes m info idx = (data.drop (info.pageNumOffset / 4096)).take 512 := by
  rw [sectorBytes,hnode,Option.bind_some,hread,sectorFileOffset_eq,Option.getD_some,
    List.take_take]
  rfl

theorem writeBytes_sector (data : List UInt8) (k o : ℕ) :
    writeBytes (fun _ => 0) (o / 512 * 512) ((data.drop k).take 512) o =
      data.getD (k + o % 512) 0 := by
  unfold writeBytes
  rw [List.length_take,List.length_drop]
  split_ifs with ho
  · have hmod : o - o / 512 * 512 = o % 512 := by omega
    rw [hmod,List.getD_eq_getElem?_getD,List.getD_eq_getElem?_getD,List.getElem?_take,
      if_pos (by omega),List.getElem?_drop]
  · rw [List.getD_eq_getElem?_getD,List.getElem?_eq_none (by omega)]
    rfl

theorem diskByte_of_data (hnode : m.inodes inode = some node)
    (hread : ∀ offset len, node.read offset len = some ((data.drop offset).take len)) (x : ℕ) :
    diskByte m inode x = imageOf data (x / 4096) (x % 4096) := by
  have hnode' : m.inodes (DiskFileInfo.mk inode (x / 4096)).inode = some node := hnode
  rw [diskByte,sectorBytes_of_data hnode' hread,writeBytes_sector]
  rfl

structure ShowsFile (m : Machine) (c inode : ℕ) (view : ℕ → UInt8) : Prop where
  cached : ∀ (p : ℕ) (page : Page), (m.pageCaches c)[p]? = some page →
    page.diskFile = some ⟨inode, p⟩ ∧
      ∀ o, o < 4096 → contentOf m page ⟨inode, p⟩ o = view (p * 4096 + o)
  absent : ∀ p : ℕ, (m.pageCaches c)[p]? = none →
    ∀ o, o < 4096 → diskByte m inode (p * 4096 + o) = view (p * 4096 + o)

structure CacheStep (c : ℕ) (m m' : Machine) : Prop where
  reads : ∀ i, (m'.inodes i).map Inode.read = (m.inodes i).map Inode.read
  caches : ∀ c', c' ≠ c → m'.pageCaches c' = m.pageCaches c'
  frames : ∀ (c' p : ℕ) (page : Page), c' ≠ c → (m.pageCaches c')[p]? = some page →
    m'.ram page.ppn = m.ram page.ppn ∧ m'.dataState page.ppn = m.dataState page.ppn

variable {m₁ m₂ m₃ : Machine}

theorem CacheInv.of_empty (hram : ∀ f ∈ m.frameAllocator.free, InRam f)
    (hempty : ∀ c, m.pageCaches c = ∅) : CacheInv m := by
  have hnone : ∀ (c p : ℕ) (page : Page), (m.pageCaches c)[p]? ≠ some page := by
    intro c p page hp
    rw [hempty] at hp
    cases hp
  exact ⟨hram,fun c p page hp => (hnone c p page hp).elim,
    fun c p page _ _ _ hp => (hnone c p page hp).elim⟩

theorem CacheStep.refl (c : ℕ) (m : Machine) : CacheStep c m m :=
  ⟨fun _ => rfl,fun _ _ => rfl,fun _ _ _ _ _ => ⟨rfl,rfl⟩⟩

theorem CacheStep.trans (h : CacheStep c m₁ m₂) (h' : CacheStep c m₂ m₃) : CacheStep c m₁ m₃ := by
  refine ⟨fun i => (h'.reads i).trans (h.reads i),
    fun c' hc => (h'.caches c' hc).trans (h.caches c' hc),fun c' p page hc hp => ?_⟩
  obtain ⟨hram,hstate⟩ := h.frames c' p page hc hp
  rw [← h.caches c' hc] at hp
  obtain ⟨hram',hstate'⟩ := h'.frames c' p page hc hp
  exact ⟨hram'.trans hram,hstate'.trans hstate⟩

section

variable (h : ∀ i, (m'.inodes i).map Inode.read = (m.inodes i).map Inode.read)
include h

theorem sectorBytes_congr
    (info : DiskFileInfo) (idx : ℕ) : sectorBytes m' info idx = sectorBytes m info idx := by
  have hread := h info.inode
  unfold sectorBytes
  cases h₁ : m'.inodes info.inode with
  | none =>
    rw [h₁,Option.map_none,eq_comm,Option.map_eq_none_iff] at hread
    rw [hread]
  | some node =>
    rw [h₁,Option.map_some,eq_comm,Option.map_eq_some_iff] at hread
    obtain ⟨node',hnode',heq⟩ := hread
    rw [hnode',Option.bind_some,Option.bind_some,heq]

theorem contentOf_congr (hram : m'.ram page.ppn = m.ram page.ppn)
    (hstate : m'.dataState page.ppn = m.dataState page.ppn) (info : DiskFileInfo) :
    contentOf m' page info = contentOf m page info := by
  funext o
  rw [contentOf,contentOf,hram,hstate,sectorBytes_congr h]

theorem diskByte_congr (inode x : ℕ) : diskByte m' inode x = diskByte m inode x := by
  rw [diskByte,diskByte,sectorBytes_congr h]

end

theorem ShowsFile.other {c' : ℕ} (h : ShowsFile m c' inode view) (step : CacheStep c m m')
    (hne : c' ≠ c) : ShowsFile m' c' inode view := by
  refine ⟨fun p page hp => ?_,fun p hp o ho => ?_⟩
  · rw [step.caches c' hne] at hp
    obtain ⟨hdisk,hcontent⟩ := h.cached p page hp
    obtain ⟨hram,hstate⟩ := step.frames c' p page hne hp
    refine ⟨hdisk,fun o ho => ?_⟩
    rw [contentOf_congr step.reads hram hstate]
    exact hcontent o ho
  · rw [step.caches c' hne] at hp
    rw [diskByte_congr step.reads]
    exact h.absent p hp o ho

theorem ShowsFile.congr {view' : ℕ → UInt8} (h : ShowsFile m c inode view)
    (hv : ∀ x, view x = view' x) : ShowsFile m c inode view' :=
  ⟨fun p page hp => ⟨(h.cached p page hp).1,fun o ho => ((h.cached p page hp).2 o ho).trans (hv _)⟩,
    fun p hp o ho => (h.absent p hp o ho).trans (hv _)⟩

end Invariant

section Borrowing

variable {p : ℕ}

structure Borrowed (c inode p : ℕ) (page : Page) (view : ℕ → UInt8) (m : Machine) : Prop where
  inv : CacheInv m
  shows : ShowsFile m c inode view
  found : (m.pageCaches c)[p]? = some page
  count : 2 ≤ m.strong page.ppn

theorem cloned_borrowed (inv : CacheInv m) (shows : ShowsFile m c inode view)
    (hfound : (m.pageCaches c)[p]? = some page) :
    Borrowed c inode p page view (cloned m page) := by
  have hcount := (inv.live c p page hfound).2.2
  have hstrong : ∀ q, m.strong q ≤ (cloned m page).strong q := by
    intro q
    unfold cloned
    dsimp only
    by_cases hq : q = page.ppn
    · rw [hq,update_self]
      omega
    · rw [update_of_ne hq]
  refine ⟨⟨inv.freeInRam,fun c' p' q hq => ?_,inv.apart⟩,?_,hfound,?_⟩
  · obtain ⟨hr,hf,hs⟩ := inv.live c' p' q hq
    exact ⟨hr,hf,lt_of_lt_of_le hs (hstrong _)⟩
  · exact ⟨shows.cached,shows.absent⟩
  · change 2 ≤ update m.strong page.ppn (m.strong page.ppn + 1) page.ppn
    rw [update_self]
    omega

theorem getElem?_created (c' p' : ℕ) :
    ((created m c inode p x rest).pageCaches c')[p']? =
      if c' = c ∧ p' = p then some (newPage x inode p) else (m.pageCaches c')[p']? := by
  change (update m.pageCaches c _ c')[p']? = _
  by_cases hc : c' = c
  · subst hc
    rw [update_self,getElem?_insert]
    by_cases hp : p' = p
    · rw [if_pos hp,if_pos ⟨rfl,hp⟩]
    · rw [if_neg hp,if_neg fun h => hp h.2]
  · rw [update_of_ne hc,if_neg fun h => hc h.1]

theorem created_other {q : ℕ} (h : q ≠ x) :
    (created m c inode p x rest).ram q = m.ram q ∧
      (created m c inode p x rest).dataState q = m.dataState q ∧
      (created m c inode p x rest).strong q = m.strong q :=
  ⟨takeFrame_ram_ne m rest h,update_of_ne h _ _,update_of_ne h _ _⟩

theorem created_content {o : ℕ} (ho : o < 4096) :
    contentOf (created m c inode p x rest) (newPage x inode p) ⟨inode, p⟩ o =
      diskByte m inode (p * 4096 + o) := by
  have hstate : (created m c inode p x rest).dataState (newPage x inode p).ppn (o / 512) = .empty :=
    congrFun (update_self (f := m.dataState) x (fun _ => DataState.empty)) (o / 512)
  have hrow : (created m c inode p x rest).ram (newPage x inode p).ppn = fun _ => 0 :=
    takeFrame_ram_self m x rest
  have hdiv : (p * 4096 + o) / 4096 = p := by omega
  have hmod : (p * 4096 + o) % 4096 = o := by omega
  rw [contentOf,if_pos hstate,hrow,diskByte,hdiv,hmod]
  rfl

theorem created_borrowed (inv : CacheInv m) (shows : ShowsFile m c inode view)
    (hnew : (m.pageCaches c)[p]? = none)
    (halloc : m.frameAllocator.alloc = some (x, rest)) :
    Borrowed c inode p (newPage x inode p) view (created m c inode p x rest) ∧
      CacheStep c m (created m c inode p x rest) := by
  have hmem := alloc_mem halloc
  have hsub := alloc_sub halloc
  have hne : ∀ (c' p' : ℕ) (q : Page), (m.pageCaches c')[p']? = some q → q.ppn ≠ x := by
    rintro c' p' q hq rfl
    exact (inv.live c' p' q hq).2.1 hmem
  have hkept : ∀ (c' p' : ℕ) (q : Page), (m.pageCaches c')[p']? = some q →
      ∀ info, contentOf (created m c inode p x rest) q info = contentOf m q info := by
    intro c' p' q hq info
    obtain ⟨hram,hstate,-⟩ : (created m c inode p x rest).ram q.ppn = m.ram q.ppn ∧ _ ∧ _ :=
      created_other (hne c' p' q hq)
    have hreads : ∀ i, ((created m c inode p x rest).inodes i).map Inode.read =
        (m.inodes i).map Inode.read := fun _ => rfl
    exact contentOf_congr hreads hram hstate info
  have hcases : ∀ (c' p' : ℕ) (q : Page),
      ((created m c inode p x rest).pageCaches c')[p']? = some q →
      (c' = c ∧ p' = p ∧ q = newPage x inode p) ∨ (m.pageCaches c')[p']? = some q := by
    intro c' p' q hq
    rw [getElem?_created] at hq
    split_ifs at hq with heq
    · cases hq
      exact .inl ⟨heq.1,heq.2,rfl⟩
    · exact .inr hq
  refine ⟨⟨⟨fun f hf => inv.freeInRam f (hsub f hf),?_,?_⟩,⟨?_,?_⟩,?_,?_⟩,?_,?_,?_⟩
  · intro c' p' q hq
    rcases hcases c' p' q hq with ⟨-,-,rfl⟩ | hold
    · refine ⟨inv.freeInRam x hmem,alloc_not_mem halloc,?_⟩
      change 0 < update m.strong x 2 x
      rw [update_self]
      decide
    · obtain ⟨hr,hf,hs⟩ := inv.live c' p' q hold
      refine ⟨hr,fun hc => hf (hsub _ hc),?_⟩
      rw [(created_other (hne c' p' q hold)).2.2]
      exact hs
  · intro c' p' q c'' p'' q' hq hq' heq
    rcases hcases c' p' q hq with ⟨rfl,rfl,rfl⟩ | hold
    · rcases hcases c'' p'' q' hq' with ⟨rfl,rfl,-⟩ | hold'
      · exact ⟨rfl,rfl⟩
      · exact (hne c'' p'' q' hold' heq.symm).elim
    · rcases hcases c'' p'' q' hq' with ⟨-,-,rfl⟩ | hold'
      · exact (hne c' p' q hold heq).elim
      · exact inv.apart c' p' q c'' p'' q' hold hold' heq
  · intro p' q hq
    rcases hcases c p' q hq with ⟨-,rfl,rfl⟩ | hold
    · refine ⟨rfl,fun o ho => ?_⟩
      rw [created_content ho]
      exact shows.absent p' hnew o ho
    · obtain ⟨hdisk,hcontent⟩ := shows.cached p' q hold
      refine ⟨hdisk,fun o ho => ?_⟩
      rw [hkept c p' q hold]
      exact hcontent o ho
  · intro p' hp' o ho
    rw [getElem?_created] at hp'
    split at hp'
    · cases hp'
    · exact shows.absent p' hp' o ho
  · rw [getElem?_created,if_pos ⟨rfl,rfl⟩]
  · change 2 ≤ update m.strong x 2 x
    rw [update_self]
  · exact fun _ => rfl
  · exact fun c' hc => update_of_ne hc _ _
  · intro c' p' q _ hq
    exact ⟨(created_other (hne c' p' q hq)).1,(created_other (hne c' p' q hq)).2.1⟩

def usedView (m' : Machine) (inode p : ℕ) (page : Page) (view : ℕ → UInt8) (x : ℕ) : UInt8 :=
  if x / 4096 = p then contentOf m' page ⟨inode, p⟩ (x % 4096) else view x

theorem Borrowed.used (b : Borrowed c inode p page view m) (h : OnlyPage page m m') :
    Borrowed c inode p page (usedView m' inode p page view) m' ∧ CacheStep c m m' := by
  have hcaches : m'.pageCaches = m.pageCaches := by rw [h.rest]
  have hreads : ∀ i, (m'.inodes i).map Inode.read = (m.inodes i).map Inode.read := fun i => by
    rw [h.inodes]
  have hother : ∀ q : ℕ, q ≠ page.ppn → m'.ram q = m.ram q ∧ m'.dataState q = m.dataState q := by
    intro q hq
    rw [h.rest]
    exact ⟨update_of_ne hq _ _,update_of_ne hq _ _⟩
  have hstrong : m'.strong = m.strong := by rw [h.rest]
  have hfree : m'.frameAllocator = m.frameAllocator := by rw [h.rest]
  refine ⟨⟨⟨?_,?_,?_⟩,⟨?_,?_⟩,?_,?_⟩,hreads,fun c' _ => by rw [hcaches],?_⟩
  · rw [hfree]
    exact b.inv.freeInRam
  · rw [hfree,hstrong,hcaches]
    exact b.inv.live
  · rw [hcaches]
    exact b.inv.apart
  · intro p' q hq
    rw [hcaches] at hq
    obtain ⟨hdisk,hcontent⟩ := b.shows.cached p' q hq
    refine ⟨hdisk,fun o ho => ?_⟩
    have hdiv : (p' * 4096 + o) / 4096 = p' := by omega
    have hmod : (p' * 4096 + o) % 4096 = o := by omega
    unfold usedView
    rw [hdiv,hmod]
    by_cases hp : p' = p
    · subst hp
      rw [b.found] at hq
      cases hq
      rw [if_pos rfl]
    · rw [if_neg hp]
      have hne : q.ppn ≠ page.ppn := fun heq => hp (b.inv.apart c p' q c p page hq b.found heq).2
      rw [contentOf_congr hreads (hother _ hne).1 (hother _ hne).2]
      exact hcontent o ho
  · intro p' hp' o ho
    rw [hcaches] at hp'
    have hdiv : (p' * 4096 + o) / 4096 = p' := by omega
    have hp : p' ≠ p := by
      rintro rfl
      rw [b.found] at hp'
      cases hp'
    unfold usedView
    rw [hdiv,if_neg hp,diskByte_congr hreads]
    exact b.shows.absent p' hp' o ho
  · rw [hcaches]
    exact b.found
  · rw [hstrong]
    exact b.count
  · intro c' p' q hc hq
    exact hother _ fun heq => hc (b.inv.apart c' p' q c p page hq b.found heq).1

def released (m : Machine) (page : Page) : Machine :=
  { m with strong := update m.strong page.ppn (m.strong page.ppn - 1) }

theorem arcDrop_released (h : 2 ≤ m.strong page.ppn) :
    arcDrop page m = .ok () (released m page) := by
  have hset : (set (released m page) : Kernel PUnit) m = .ok () (released m page) := rfl
  change ((get : Kernel Machine) >>= fun m => set (released m page) >>= fun _ =>
    if m.strong page.ppn ≤ 1 then deallocFrame page.ppn else pure ()) m = _
  rw [get_bind,bind_ok hset,if_neg (by omega)]
  rfl

theorem Borrowed.returned (b : Borrowed c inode p page view m) : CacheInv (released m page) := by
  have hcount := b.count
  refine ⟨b.inv.freeInRam,fun c' p' q hq => ?_,b.inv.apart⟩
  obtain ⟨hr,hf,hs⟩ := b.inv.live c' p' q hq
  refine ⟨hr,hf,?_⟩
  unfold released
  dsimp only
  by_cases heq : q.ppn = page.ppn
  · rw [heq,update_self]
    omega
  · rw [update_of_ne heq]
    exact hs

end Borrowing

section Dropping

theorem arcDrop_live (hfree : page.ppn ∉ m.frameAllocator.free) :
    ∃ a : FrameAllocator, (∀ g ∈ a.free, g = page.ppn ∨ g ∈ m.frameAllocator.free) ∧
      arcDrop page m = .ok () { released m page with frameAllocator := a } := by
  have hset : (set (released m page) : Kernel PUnit) m = .ok () (released m page) := rfl
  have hunfold : arcDrop page m = (if m.strong page.ppn ≤ 1 then deallocFrame page.ppn else pure ())
      (released m page) := by
    change ((get : Kernel Machine) >>= fun m => set (released m page) >>= fun _ =>
      if m.strong page.ppn ≤ 1 then deallocFrame page.ppn else pure ()) m = _
    rw [get_bind,bind_ok hset]
  rw [hunfold]
  by_cases hlast : m.strong page.ppn ≤ 1
  · obtain ⟨a,hdealloc,hmem⟩ := dealloc_some hfree
    refine ⟨a,fun g hg => (hmem g).mp hg,?_⟩
    have hget' : (get : Kernel Machine) (released m page) = .ok (released m page)
      (released m page) :=
      rfl
    have hdealloc' : (released m page).frameAllocator.dealloc page.ppn = some a := hdealloc
    rw [if_pos hlast,deallocFrame,bind_ok hget',hdealloc']
    rfl
  · exact ⟨m.frameAllocator,fun g hg => .inr hg,by rw [if_neg hlast]; rfl⟩

structure Dropping (c : ℕ) (m : Machine) (l : List (ℕ × Page)) (m' : Machine) : Prop where
  rest : m' = { m with strong := m'.strong, frameAllocator := m'.frameAllocator }
  freeInRam : ∀ f ∈ m'.frameAllocator.free, InRam f
  entries : ∀ e ∈ l, (m.pageCaches c)[e.1]? = some e.2
  nodup : l.Nodup
  live : ∀ (c' p : ℕ) (page : Page), (m.pageCaches c')[p]? = some page → (c' = c → (p, page) ∈ l) →
    page.ppn ∉ m'.frameAllocator.free ∧ 0 < m'.strong page.ppn

theorem Dropping.next (inv : CacheInv m) {e : ℕ × Page} {l : List (ℕ × Page)}
    (h : Dropping c m (e :: l) m') :
    Holds (arcDrop e.2) m' (fun _ m'' => Dropping c m l m'') (Never Panic Machine) := by
  have hcached := h.entries e List.mem_cons_self
  obtain ⟨hfree,-⟩ := h.live c e.1 e.2 hcached fun _ => List.mem_cons_self
  obtain ⟨a,hmem,hdrop⟩ := arcDrop_live hfree
  refine holds_ok hdrop ⟨?_,fun f hf => ?_,fun e' he' => h.entries e' (List.mem_cons_of_mem _ he'),
    h.nodup.of_cons,fun c' p page hp hleft => ?_⟩
  · rw [released,h.rest]
  · rcases hmem f hf with rfl | hold
    · exact (inv.live c e.1 e.2 hcached).1
    · exact h.freeInRam f hold
  · -- another page is in another frame
    have hne : page.ppn ≠ e.2.ppn := by
      intro heq
      obtain ⟨rfl,rfl⟩ := inv.apart c' p page c e.1 e.2 hp hcached heq
      cases hp.symm.trans hcached
      exact (List.nodup_cons.mp h.nodup).1 (hleft rfl)
    obtain ⟨hf,hs⟩ := h.live c' p page hp fun hc => List.mem_cons_of_mem _ (hleft hc)
    refine ⟨fun hc => (hmem _ hc).elim hne hf,?_⟩
    change 0 < update m'.strong e.2.ppn _ page.ppn
    rw [update_of_ne hne]
    exact hs

theorem dropPages_dropping (inv : CacheInv m) :
    Holds (dropPages (m.pageCaches c)) m (fun _ m' => Dropping c m [] m')
      (Never Panic Machine) := by
  refine holds_foldlM (fun l (_ : Unit) m' => Dropping c m l m')
    (fun e l _ m' h => h.next inv) _ () m ?_
  refine ⟨rfl,inv.freeInRam,fun e he => mem_toList.mp he,nodup_toList _,
    fun c' p page hp _ => ?_⟩
  exact (inv.live c' p page hp).2

end Dropping

end DuckOs.PageCaches
