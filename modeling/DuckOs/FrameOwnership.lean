import DuckOs.PageModel
import DuckOs.PageTableSharing

/-! Who owns which frame. A frame is free, holds a table, or belongs to a page
with a positive strong count; the handles that are tracked never exceed that
count. Under this invariant no data write can reach a table and no drop can
free a frame twice. -/
namespace DuckOs.FrameOwnership
open ExecutionRules AddressModel PermissionFlags KernelMachine PageTableModel Function
open PageTableTree PageTableWalks PageTableOperations PageModel
open OrderedMaps

variable {v vpn root : ℕ} {S K : ℕ → Prop} {page : Page} {new p : List ℕ} {o : Option ℕ}
  {m' m : Machine} {pt : PageTable} {ext : ℕ → ℕ}

/-- The entry of an accepted page, by page number. -/
def pteAt (m : Machine) (root v : ℕ) : Option ℕ :=
  if checkUserVa (v * 4096) then entryAt m root (v * 4096) else none

def single (page : Page) (p : ℕ) : ℕ := if page.ppn = p then 1 else 0

def pagesHeld (pages : BTreeMap Page) (p : ℕ) : ℕ := total (fun page => single page p) pages

def TableOf (pt : PageTable) (K : ℕ → Prop) (g : ℕ) : Prop := g ∈ pt.frames ∨ K g

/-- `K` are table frames shared with other tables, `held` the handles of this address space
and `ext` those of everybody else, the page caches among them. -/
structure Space (m : Machine) (pt : PageTable) (root : ℕ) (K : ℕ → Prop) (held ext : ℕ → ℕ) :
    Prop where
  rootPaddr : pt.rootPaddr = root * 4096
  tree : Tree m root (TableOf pt K)
  counts : ∀ p, held p + ext p ≤ m.strong p
  live : ∀ p, 0 < m.strong p → p ∉ m.frameAllocator.free ∧ ¬ TableOf pt K p ∧ InRam p
  caches : ∀ c (k : ℕ) page, (m.pageCaches c)[k]? = some page → 0 < ext page.ppn

section Entries

theorem pteAt_accepted (h : checkUserVa (v * 4096) = true) :
    pteAt m root v = entryAt m root (v * 4096) := by
  rw [pteAt,h,if_pos rfl]

theorem pteAt_edited (ed : Edited m m' root (vaPath (v * 4096)) (vaIndex (v * 4096)) new o)
    (hc : checkUserVa (v * 4096) = true) : pteAt m' root = update (pteAt m root) v o := by
  funext u
  by_cases hu : checkUserVa (u * 4096) = true
  · rw [pteAt_accepted hu,ed.entry hc hu]
    by_cases huv : u = v
    · rw [huv,if_pos rfl,update_self]
    · have hne : ¬ u * 4096 / 4096 = v * 4096 / 4096 := by omega
      rw [if_neg hne,update_of_ne huv,pteAt_accepted hu]
  · have huv : u ≠ v := by
      rintro rfl
      exact hu hc
    rw [update_of_ne huv,pteAt,pteAt,if_neg hu,if_neg hu]

theorem pteAt_rows (t : Tree m root S) (same : ∀ g, S g → m'.ram g = m.ram g) :
    pteAt m' root = pteAt m root := by
  funext u
  unfold pteAt entryAt
  rw [PageTableSharing.lookupIn_unwritten (fun g ⟨p,hp,hr⟩ => same g (t.members p g hp hr))
    (by rw [vaPath_length]; omega)]

theorem tree_rows (t : Tree m root S) (same : ∀ g, S g → m'.ram g = m.ram g)
    (used : ∀ g, S g → g ∉ m'.frameAllocator.free)
    (ram : ∀ g ∈ m'.frameAllocator.free, InRam g) : Tree m' root S := by
  have hreach : ∀ p : List ℕ, p.length < 3 → reachIn m' root p = reachIn m root p :=
    fun p hp => PageTableSharing.reachIn_unwritten
      (fun g ⟨q,hq,hr⟩ => same g (t.members q g hq hr)) (by omega)
  refine ⟨?_,?_,t.inRam,used,ram⟩
  · intro p q g hp hq hpg hqg
    exact t.separated p q g hp hq ((hreach p hp).symm.trans hpg) ((hreach q hq).symm.trans hqg)
  · intro p g hp hg
    exact t.members p g hp ((hreach p hp).symm.trans hg)

end Entries

section TableSteps

variable {held : ℕ → ℕ}

theorem Space.extended (s : Space m pt root K held ext) (e : Extended m m' root p new) :
    Space m' { pt with frames := pt.frames ++ new } root K held ext := by
  have hstrong : m'.strong = m.strong := by rw [e.rest]
  have hcaches : m'.pageCaches = m.pageCaches := by rw [e.rest]
  have grown := e.tree s.tree
  have split : ∀ g, TableOf { pt with frames := pt.frames ++ new } K g ↔
      TableOf pt K g ∨ g ∈ new := by
    intro g
    unfold TableOf
    rw [List.mem_append]
    tauto
  refine ⟨s.rootPaddr,?_,?_,?_,?_⟩
  · refine grown.weaken (fun g hg => (split g).mpr hg) ?_ ?_
    · exact fun g hg => grown.inRam g ((split g).mp hg)
    · exact fun g hg => grown.notFree g ((split g).mp hg)
  · rw [hstrong]
    exact s.counts
  · intro q hq
    rw [hstrong] at hq
    obtain ⟨hfree,htable,hram⟩ := s.live q hq
    refine ⟨fun hf => hfree (e.free_sub hf),fun ht => ?_,hram⟩
    rcases (split q).mp ht with old | made
    · exact htable old
    · exact hfree (e.fresh made).1
  · rw [hcaches]
    exact s.caches

theorem Space.dataWrite (s : Space m pt root K held ext)
    (same : ∀ g, TableOf pt K g → m'.ram g = m.ram g) (free : m'.frameAllocator = m.frameAllocator)
    (strong : m'.strong = m.strong) (caches : m'.pageCaches = m.pageCaches) :
    Space m' pt root K held ext ∧ pteAt m' root = pteAt m root := by
  refine ⟨⟨s.rootPaddr,tree_rows s.tree same ?_ ?_,?_,?_,?_⟩,pteAt_rows s.tree same⟩
  · rw [free]
    exact s.tree.notFree
  · rw [free]
    exact s.tree.freeInRam
  · rw [strong]
    exact s.counts
  · rw [strong,free]
    exact s.live
  · rw [caches]
    exact s.caches

theorem Space.held_congr {held' : ℕ → ℕ} (s : Space m pt root K held ext)
    (h : ∀ p, held' p ≤ held p) : Space m pt root K held' ext :=
  ⟨s.rootPaddr,s.tree,fun p => (Nat.add_le_add_right (h p) _).trans (s.counts p),s.live,s.caches⟩

theorem allocator_eq {a b : FrameAllocator} (h : a.free = b.free) : a = b := by
  cases a
  cases b
  cases h
  rfl

structure TableWrite (m m' : Machine) (pt : PageTable) (K : ℕ → Prop) : Prop where
  rest : m' = { m with ram := m'.ram }
  data : ∀ g, ¬ TableOf pt K g → m'.ram g = m.ram g

theorem TableWrite.refl (m : Machine) (pt : PageTable) (K : ℕ → Prop) : TableWrite m m pt K :=
  ⟨rfl,fun _ _ => rfl⟩

theorem onPath_table (t : Tree m root S) (hp : p.length < 3) {g : ℕ} (hg : OnPath m root p g) :
    S g := by
  obtain ⟨a,ha,hr⟩ := hg
  exact t.members a g (lt_of_le_of_lt ha.length_le hp) hr

theorem Edited.tableWrite {i : ℕ} (s : Space m pt root K held ext)
    (ed : Edited m m' root (vaPath v) i [] o) : TableWrite m m' pt K := by
  have hfree : m'.frameAllocator = m.frameAllocator := allocator_eq ed.free.symm
  refine ⟨?_,?_⟩
  · rw [ed.rest,hfree]
  · intro g hg
    exact ed.ram g (List.not_mem_nil) fun hp =>
      hg (onPath_table s.tree (by rw [vaPath_length]; omega) hp)

theorem ptUnmap_space (s : Space m pt root K held ext) (hv : vpn < 2 ^ 52) :
    Holds (PageTable.unmap pt vpn) m
      (fun _ m' => checkUserVa (vpn * 4096) = true ∧ Space m' pt root K held ext ∧
        pteAt m' root = update (pteAt m root) vpn none ∧ TableWrite m m' pt K)
      (fun _ _ => checkUserVa (vpn * 4096) = false) := by
  have hshift := vpnShift_of_lt hv
  have spec := unmap_holds s.tree s.rootPaddr vpn
  rw [hshift] at spec
  refine spec.mono ?_ ?_
  · rintro - m' ⟨hc,ed⟩
    have kept := s.extended ed.toExtended
    rw [List.append_nil] at kept
    exact ⟨hc,kept,pteAt_edited ed hc,Edited.tableWrite s ed⟩
  · rintro e m' ⟨-,hc,-⟩
    exact hc

theorem ptModify_space (s : Space m pt root K held ext) (hv : vpn < 2 ^ 52)
    (flags : PTEFlags) :
    Holds (PageTable.modifyFlags pt vpn flags) m
      (fun _ m' => checkUserVa (vpn * 4096) = true ∧ Space m' pt root K held ext ∧
        (∃ w, w < 2 ^ 64 ∧ pteAt m root vpn = some w ∧
          pteAt m' root = update (pteAt m root) vpn
            (some (PageTable.replaceFlags w flags))) ∧ TableWrite m m' pt K)
      (fun _ _ => pteAt m root vpn = none) := by
  have hshift := vpnShift_of_lt hv
  have spec := modifyFlags_holds s.tree s.rootPaddr vpn flags
  rw [hshift] at spec
  refine spec.mono ?_ ?_
  · rintro - m' ⟨hc,w,hw,hentry,ed⟩
    have kept := s.extended ed.toExtended
    rw [List.append_nil] at kept
    refine ⟨hc,kept,⟨w,hw,?_,pteAt_edited ed hc⟩,Edited.tableWrite s ed⟩
    rw [pteAt_accepted hc]
    exact hentry
  · rintro e m' ⟨-,⟨-,hc⟩ | ⟨-,hnone⟩⟩
    · rw [pteAt,hc]
      rfl
    · unfold pteAt
      split
      · exact hnone
      · rfl

structure TableGrowth (m m' : Machine) (pt pt' : PageTable) (K : ℕ → Prop) (n : ℕ) : Prop where
  rest : m' = { m with ram := m'.ram, frameAllocator := m'.frameAllocator }
  data : ∀ g, g ∉ m.frameAllocator.free → ¬ TableOf pt K g → m'.ram g = m.ram g
  taken : ∃ new, m.frameAllocator.free = new ++ m'.frameAllocator.free ∧ new.length ≤ n ∧
    pt' = { pt with frames := pt.frames ++ new }

theorem ptMapOne_space (s : Space m pt root K held ext) (hv : vpn < 2 ^ 52) (ppn : ℕ)
    (flags : PTEFlags) :
    Holds (PageTable.mapOne pt vpn ppn flags) m
      (fun pt' m' => checkUserVa (vpn * 4096) = true ∧ pteAt m root vpn = none ∧
        Space m' pt' root K held ext ∧
        pteAt m' root = update (pteAt m root) vpn (some (mappedWord ppn flags)) ∧
        TableGrowth m m' pt pt' K 2)
      (fun _ _ => checkUserVa (vpn * 4096) = false ∨ pteAt m root vpn ≠ none ∨
        m.frameAllocator.free.length < 2) := by
  have hshift := vpnShift_of_lt hv
  have spec := mapOne_holds s.tree s.rootPaddr vpn ppn flags
  rw [hshift] at spec
  refine spec.mono ?_ ?_
  · rintro pt' m' ⟨hc,hnone,new,rfl,hlen,ed⟩
    refine ⟨hc,?_,s.extended ed.toExtended,pteAt_edited ed hc,ed.rest,?_,
      new,ed.free,hlen,rfl⟩
    · rw [pteAt_accepted hc]
      exact hnone
    · intro g hfree htable
      refine ed.ram g (fun hn => hfree (ed.toExtended.fresh hn).1) fun hp => htable ?_
      exact onPath_table s.tree (by rw [vaPath_length]; omega) hp
  · rintro e m' (⟨-,hc,-⟩ | ⟨hc,⟨-,hfew⟩ | ⟨-,hsome⟩,-⟩)
    · exact .inl hc
    · exact .inr (.inr hfew)
    · refine .inr (.inl ?_)
      rw [pteAt_accepted hc]
      exact hsome

end TableSteps

section Handles

variable {h : ℕ → ℕ}

theorem single_self (page : Page) : single page page.ppn = 1 := if_pos rfl

theorem single_ne {p : ℕ} (hp : p ≠ page.ppn) : single page p = 0 :=
  if_neg (Ne.symm hp)

structure HandleStep (m m' : Machine) (root : ℕ) : Prop where
  ram : m'.ram = m.ram
  pte : pteAt m' root = pteAt m root
  rest : m' = { m with strong := m'.strong, frameAllocator := m'.frameAllocator }

theorem HandleStep.refl (m : Machine) (root : ℕ) : HandleStep m m root := ⟨rfl,rfl,rfl⟩

theorem HandleStep.trans {m₁ m₂ m₃ : Machine} (a : HandleStep m₁ m₂ root)
    (b : HandleStep m₂ m₃ root) : HandleStep m₁ m₃ root := by
  refine ⟨b.ram.trans a.ram,b.pte.trans a.pte,?_⟩
  rw [b.rest,a.rest]

theorem arcDrop_space (s : Space m pt root K (fun p => h p + single page p) ext) :
    Holds (arcDrop page) m
      (fun _ m' => Space m' pt root K h ext ∧ HandleStep m m' root) (Never Panic Machine) := by
  have hcount := s.counts page.ppn
  rw [single_self] at hcount
  obtain ⟨hfree,htable,hram⟩ := s.live page.ppn (by omega)
  have less : ∀ p, h p + ext p ≤
      update m.strong page.ppn (m.strong page.ppn - 1) p := by
    intro p
    by_cases hp : p = page.ppn
    · rw [hp,update_self]
      omega
    · have hc := s.counts p
      rw [update_of_ne hp]
      omega
  have wasLive : ∀ p, 0 < update m.strong page.ppn (m.strong page.ppn - 1) p →
      0 < m.strong p := by
    intro p hp
    by_cases hpp : p = page.ppn
    · rw [hpp,update_self] at hp
      rw [hpp]
      omega
    · rwa [update_of_ne hpp] at hp
  have hset : (set { m with strong := update m.strong page.ppn (m.strong page.ppn - 1) } :
      Kernel PUnit) m = .ok ⟨⟩
        { m with strong := update m.strong page.ppn (m.strong page.ppn - 1) } := rfl
  unfold arcDrop Holds
  rw [get_bind,bind_ok hset]
  by_cases hlast : m.strong page.ppn ≤ 1
  · -- the last handle: the frame returns to the allocator
    rw [if_pos hlast]
    obtain ⟨rest,hd,hmem⟩ := dealloc_some hfree
    have hdealloc : deallocFrame page.ppn
        { m with strong := update m.strong page.ppn (m.strong page.ppn - 1) } =
        .ok () { m with
          strong := update m.strong page.ppn (m.strong page.ppn - 1)
          frameAllocator := rest } := by
      unfold deallocFrame
      have hget' : (get : Kernel Machine)
          { m with strong := update m.strong page.ppn (m.strong page.ppn - 1) } = .ok _ _ :=
        rfl
      rw [bind_ok hget']
      simp only [hd]
      rfl
    rw [hdealloc]
    have ht : Tree { m with
        strong := update m.strong page.ppn (m.strong page.ppn - 1)
        frameAllocator := rest } root (TableOf pt K) := by
      refine tree_rows s.tree (fun _ _ => rfl) ?_ ?_
      · intro g hg hf
        rcases (hmem g).mp hf with rfl | old
        · exact htable hg
        · exact s.tree.notFree g hg old
      · intro g hg
        rcases (hmem g).mp hg with rfl | old
        · exact hram
        · exact s.tree.freeInRam g old
    refine ⟨⟨s.rootPaddr,ht,less,?_,s.caches⟩,rfl,pteAt_rows s.tree fun _ _ => rfl,rfl⟩
    intro p hp
    obtain ⟨hf,htp,hrp⟩ := s.live p (wasLive p hp)
    refine ⟨fun hc => ?_,htp,hrp⟩
    rcases (hmem p).mp hc with rfl | old
    · change 0 < update m.strong page.ppn (m.strong page.ppn - 1) page.ppn at hp
      rw [update_self] at hp
      omega
    · exact hf old
  · rw [if_neg hlast]
    have ht : Tree { m with
        strong := update m.strong page.ppn (m.strong page.ppn - 1) } root (TableOf pt K) :=
      tree_rows s.tree (fun _ _ => rfl) s.tree.notFree s.tree.freeInRam
    exact ⟨⟨s.rootPaddr,ht,less,fun p hp => s.live p (wasLive p hp),s.caches⟩,
      rfl,pteAt_rows s.tree fun _ _ => rfl,rfl⟩

theorem dropPages_space (pages : BTreeMap Page)
    (s : Space m pt root K (fun p => h p + pagesHeld pages p) ext) :
    Holds (dropPages pages) m
      (fun _ m' => Space m' pt root K h ext ∧ HandleStep m m' root) (Never Panic Machine) := by
  have loop := holds_foldlM (f := fun _ (entry : ℕ × Page) => arcDrop entry.2)
    (E := Never Panic Machine)
    (fun l (_ : Unit) m' =>
      Space m' pt root K (fun p => h p + (l.map fun e => single e.2 p).sum) ext ∧
        HandleStep m m' root)
    (by
      rintro entry rest - m' ⟨s',hs⟩
      have s'' : Space m' pt root K
          (fun p => (h p + (rest.map fun e => single e.2 p).sum) + single entry.2 p) ext := by
        refine s'.held_congr fun p => ?_
        rw [List.map_cons,List.sum_cons]
        omega
      refine (arcDrop_space s'').mono ?_ fun _ _ hc => hc
      rintro - m'' ⟨done,hs'⟩
      exact ⟨done,hs.trans hs'⟩)
    pages.toList () m ⟨s,HandleStep.refl m root⟩
  exact loop.imp fun _ m' hm => hm

theorem Space.allocated {rest : FrameAllocator} {x : ℕ} (s : Space m pt root K h ext)
    (ha : m.frameAllocator.alloc = some (x, rest)) (others : ∀ g, g ≠ x → m'.ram g = m.ram g)
    (hrest : m'.frameAllocator = rest) (hstrong : m'.strong = m.strong)
    (hcaches : m'.pageCaches = m.pageCaches) :
    Space m' pt root K h ext ∧ pteAt m' root = pteAt m root ∧ m'.strong x = 0 ∧
      x ∉ m'.frameAllocator.free ∧ ¬ TableOf pt K x ∧ InRam x := by
  have hmem := alloc_mem ha
  have sub := alloc_sub ha
  have htab : ∀ g, TableOf pt K g → g ≠ x := by
    rintro g hg rfl
    exact s.tree.notFree _ hg hmem
  have rows : ∀ g, TableOf pt K g → m'.ram g = m.ram g := fun g hg => others g (htab g hg)
  rw [← hrest] at sub
  refine ⟨⟨s.rootPaddr,tree_rows s.tree rows (fun g hg hf => s.tree.notFree g hg (sub g hf))
    fun g hg => s.tree.freeInRam g (sub g hg),?_,fun p hp => ?_,?_⟩,pteAt_rows s.tree rows,?_,
    hrest ▸ alloc_not_mem ha,fun hg => htab _ hg rfl,s.tree.freeInRam x hmem⟩
  · rw [hstrong]
    exact s.counts
  · rw [hstrong] at hp
    obtain ⟨hf,htp,hrp⟩ := s.live p hp
    exact ⟨fun hc => hf (sub p hc),htp,hrp⟩
  · rw [hcaches]
    exact s.caches
  · rw [hstrong]
    by_contra hc
    exact (s.live x (Nat.pos_of_ne_zero hc)).1 hmem

theorem Space.counted (s : Space m pt root K h ext) (page : Page) {n : ℕ}
    (hn : m.strong page.ppn < n)
    (live : page.ppn ∉ m.frameAllocator.free ∧ ¬ TableOf pt K page.ppn ∧ InRam page.ppn) :
    Space { m with strong := update m.strong page.ppn n } pt root K
      (fun p => h p + single page p) ext := by
  refine ⟨s.rootPaddr,tree_rows s.tree (fun _ _ => rfl) s.tree.notFree s.tree.freeInRam,
    fun p => ?_,fun p hp => ?_,s.caches⟩
  · have hc := s.counts p
    change _ ≤ update m.strong page.ppn n p
    by_cases he : p = page.ppn
    · rw [he] at hc ⊢
      rw [update_self,single_self]
      omega
    · rw [update_of_ne he,single_ne he]
      omega
  · change 0 < update m.strong page.ppn n p at hp
    by_cases he : p = page.ppn
    · rw [he]
      exact live
    · rw [update_of_ne he] at hp
      exact s.live p hp

theorem pageNew_space (s : Space m pt root K h ext) (per : PagePermission) :
    Holds (Page.new per >>= arcNew) m
      (fun page m' => Space m' pt root K (fun p => h p + single page p) ext ∧
        pteAt m' root = pteAt m root ∧
        (∃ rest, m.frameAllocator.alloc = some (page.ppn, rest) ∧ page = ⟨page.ppn, per, none⟩ ∧
          m' = { takeFrame m page.ppn rest with strong := update m.strong page.ppn 1 }))
      (fun _ _ => m.frameAllocator.free = []) := by
  cases ha : m.frameAllocator.alloc with
  | none =>
    exact holds_error (bind_error (bind_error (allocFrameUnwrap_none ha))) (alloc_eq_none ha)
  | some xr =>
    obtain ⟨x,rest⟩ := xr
    obtain ⟨s₁,hpte₁,hzero,live⟩ := s.allocated ha (fun g hg => takeFrame_ram_ne m rest hg) rfl
      rfl rfl
    have hnew : Page.new per m = .ok ⟨x,per,none⟩ (takeFrame m x rest) :=
      bind_ok (allocFrameUnwrap_some ha live.2.2)
    exact holds_bind_ok hnew ⟨s₁.counted ⟨x,per,none⟩ (Nat.lt_one_iff.mpr hzero) live,
      (pteAt_rows s₁.tree fun _ _ => rfl).trans hpte₁,rest,rfl,rfl,rfl⟩

end Handles

end DuckOs.FrameOwnership
