import DuckOs.PageInstalls

namespace DuckOs.TableFamilies
open ExecutionRules AddressModel PermissionFlags KernelMachine PageTableModel Function
open PageTableTree PageTableWalks PageTableOperations PageTableSharing
open PageModel VirtMemoryModel FrameOwnership PageInstalls
open OrderedMaps

variable {new : List ℕ} {page : Page} {v va root w kroot : ℕ} {rest tables : List PageTable}
  {m₀ m m' : Machine} {pt pt' : PageTable} {ext h : ℕ → ℕ}

section Tables

theorem userTable_kept (u : UserTable m₀ m kroot pt root)
    (rows : ∀ g, g ∈ pt.frames ∨ TableFrame m₀ kroot g → m'.ram g = m.ram g)
    (used : ∀ g, g ∈ pt.frames ∨ TableFrame m₀ kroot g → g ∉ m'.frameAllocator.free)
    (ram : ∀ g ∈ m'.frameAllocator.free, InRam g) :
    UserTable m₀ m' kroot pt root ∧ pteAt m' root = pteAt m root := by
  have same : ∀ g, TableFrame m root g → m'.ram g = m.ram g := by
    rintro g ⟨p,hp,hg⟩
    exact rows g (u.tree.members p g hp hg)
  refine ⟨⟨u.rootPaddr,tree_rows u.tree rows used ram,u.apart,u.rootOwn,?_,?_,?_⟩,
    pteAt_rows u.tree rows⟩
  · intro i r g hi hr hg
    rw [reachIn_unwritten same (by rw [List.length_cons]; omega)] at hg
    exact u.own i r g hi hr hg
  · intro i r j hi hr
    rw [lookupIn_unwritten same (by rw [List.length_cons]; omega)]
    exact u.shared i r j hi hr
  · intro g hg
    rw [rows g (.inr hg)]
    exact u.rows g hg

def rootFrame (pt : PageTable) : ℕ := pt.rootPaddr / 4096

theorem rootFrame_of_eq (h : pt.rootPaddr = root * 4096) : rootFrame pt = root := by
  unfold rootFrame
  omega

def AnyTable (m₀ : Machine) (kroot : ℕ) (tables : List PageTable) (g : ℕ) : Prop :=
  TableFrame m₀ kroot g ∨ ∃ pt ∈ tables, g ∈ pt.frames

theorem anyTable_own {tables : List PageTable} {g : ℕ} (hpt : pt ∈ tables)
    (hg : g ∈ pt.frames ∨ TableFrame m₀ kroot g) : AnyTable m₀ kroot tables g :=
  hg.symm.imp id fun hg => ⟨pt,hpt,hg⟩

theorem anyTable_tableOf {tables : List PageTable} {g : ℕ} (hpt : pt ∈ tables)
    (hg : TableOf pt (AnyTable m₀ kroot tables) g) : AnyTable m₀ kroot tables g :=
  hg.elim (fun hg => .inr ⟨pt,hpt,hg⟩) id

theorem anyTable_cons {g : ℕ} :
    AnyTable m₀ kroot (pt :: rest) g ↔ g ∈ pt.frames ∨ AnyTable m₀ kroot rest g := by
  simp only [AnyTable,List.exists_mem_cons_iff]
  exact or_left_comm

structure DataFrame (m₀ : Machine) (kroot : ℕ) (tables : List PageTable) (m : Machine) (g : ℕ) :
    Prop where
  used : g ∉ m.frameAllocator.free
  noTable : ¬ AnyTable m₀ kroot tables g
  inRam : InRam g

/-- User tables next to each other. `held` counts the handles of their address spaces and `ext`
all others. -/
structure Family (m₀ : Machine) (kroot : ℕ) (tables : List PageTable) (held ext : ℕ → ℕ)
    (m : Machine) : Prop where
  kernel : Tree m₀ kroot (TableFrame m₀ kroot)
  kernelSpace : ∃ table, m.kernelSpace = some table ∧ table.rootPaddr = kroot * 4096
  kernelRows : ∀ g, TableFrame m₀ kroot g → m.ram g = m₀.ram g
  user : ∀ pt ∈ tables, UserTable m₀ m kroot pt (rootFrame pt)
  apart : tables.Pairwise fun a b => ∀ g ∈ a.frames, g ∉ b.frames
  freeInRam : ∀ g ∈ m.frameAllocator.free, InRam g
  used : ∀ g, AnyTable m₀ kroot tables g → g ∉ m.frameAllocator.free
  counts : ∀ p, held p + ext p ≤ m.strong p
  live : ∀ p, 0 < m.strong p → DataFrame m₀ kroot tables m p
  caches : ∀ c (k : ℕ) page, (m.pageCaches c)[k]? = some page → 0 < ext page.ppn

end Tables

section Focus

variable {held held' : ℕ → ℕ}

theorem Family.perm (f : Family m₀ kroot tables held ext m) (h : tables.Perm rest) :
    Family m₀ kroot rest held ext m := by
  have any : ∀ g, AnyTable m₀ kroot rest g ↔ AnyTable m₀ kroot tables g := by
    intro g
    unfold AnyTable
    simp only [h.mem_iff]
  have symm : ∀ {a b : PageTable}, (∀ g ∈ a.frames, g ∉ b.frames) → ∀ g ∈ b.frames, g ∉ a.frames :=
    fun hab g hb ha => hab g ha hb
  refine ⟨f.kernel,f.kernelSpace,f.kernelRows,fun pt hpt => f.user pt (h.mem_iff.mpr hpt),
    (h.pairwise_iff symm).mp f.apart,f.freeInRam,fun g hg => f.used g ((any g).mp hg),f.counts,
    fun p hp => ?_,f.caches⟩
  have data := f.live p hp
  exact ⟨data.used,fun hg => data.noTable ((any p).mp hg),data.inRam⟩

theorem Family.space (f : Family m₀ kroot tables held ext m) (hpt : pt ∈ tables) :
    Space m pt (rootFrame pt) (AnyTable m₀ kroot tables) held ext := by
  have u := f.user pt hpt
  have table : ∀ g, TableOf pt (AnyTable m₀ kroot tables) g → AnyTable m₀ kroot tables g :=
    fun g => anyTable_tableOf hpt
  refine ⟨u.rootPaddr,u.tree.weaken ?_ ?_ ?_,f.counts,fun p hp => ?_,f.caches⟩
  · rintro g (hg | hg)
    · exact .inl hg
    · exact .inr (.inl hg)
  · intro g hg
    rcases table g hg with hk | ⟨t,ht,hgt⟩
    · exact f.kernel.inRam g hk
    · exact (f.user t ht).tree.inRam g (.inl hgt)
  · exact fun g hg => f.used g (table g hg)
  · have data := f.live p hp
    exact ⟨data.used,fun hg => data.noTable (table p hg),data.inRam⟩

theorem Family.headSpace (f : Family m₀ kroot (pt :: rest) held ext m) :
    Space m pt (rootFrame pt) (AnyTable m₀ kroot (pt :: rest)) held ext :=
  f.space List.mem_cons_self

theorem Family.step (f : Family m₀ kroot tables held ext m)
    (s : Space m' pt (rootFrame pt) (AnyTable m₀ kroot tables) held' ext)
    (rows : ∀ g, AnyTable m₀ kroot tables g → m'.ram g = m.ram g)
    (kernel : m'.kernelSpace = m.kernelSpace) :
    Family m₀ kroot tables held' ext m' ∧
      ∀ t ∈ tables, pteAt m' (rootFrame t) = pteAt m (rootFrame t) := by
  have used : ∀ g, AnyTable m₀ kroot tables g → g ∉ m'.frameAllocator.free :=
    fun g hg => s.tree.notFree g (.inr hg)
  have kept := fun t ht => userTable_kept (f.user t ht) (fun g hg => rows g (anyTable_own ht hg))
    (fun g hg => used g (anyTable_own ht hg)) s.tree.freeInRam
  refine ⟨⟨f.kernel,?_,fun g hg => (rows g (.inl hg)).trans (f.kernelRows g hg),
    fun t ht => (kept t ht).1,f.apart,s.tree.freeInRam,used,s.counts,fun p hp => ?_,
    s.caches⟩,fun t ht => (kept t ht).2⟩
  · rw [kernel]
    exact f.kernelSpace
  · obtain ⟨hfree,htable,hram⟩ := s.live p hp
    exact ⟨hfree,fun hg => htable (.inr hg),hram⟩

theorem Family.headStep (f : Family m₀ kroot (pt :: rest) held ext m)
    (u : UserTable m₀ m' kroot pt' (rootFrame pt)) (hroot : rootFrame pt' = rootFrame pt)
    (hframes : pt'.frames = pt.frames ++ new) (fresh : ∀ g ∈ new, g ∈ m.frameAllocator.free)
    (s : Space m' pt' (rootFrame pt) (AnyTable m₀ kroot (pt :: rest)) held' ext)
    (rows : ∀ g, AnyTable m₀ kroot rest g → m'.ram g = m.ram g)
    (kernel : m'.kernelSpace = m.kernelSpace) : Family m₀ kroot (pt' :: rest) held' ext m' ∧
      ∀ t ∈ rest, pteAt m' (rootFrame t) = pteAt m (rootFrame t) := by
  have table : ∀ g, AnyTable m₀ kroot (pt' :: rest) g →
      TableOf pt' (AnyTable m₀ kroot (pt :: rest)) g :=
    fun g hg => (anyTable_cons.mp hg).imp id fun hg => anyTable_cons.mpr (.inr hg)
  have used : ∀ g, AnyTable m₀ kroot (pt' :: rest) g → g ∉ m'.frameAllocator.free :=
    fun g hg => s.tree.notFree g (table g hg)
  have kept := fun t ht => userTable_kept (f.user t (List.mem_cons_of_mem pt ht))
    (fun g hg => rows g (anyTable_own ht hg))
    (fun g hg => used g (anyTable_own (List.mem_cons_of_mem _ ht) hg)) s.tree.freeInRam
  obtain ⟨hhead,hrest⟩ := List.pairwise_cons.mp f.apart
  refine ⟨⟨f.kernel,?_,fun g hg => (rows g (.inl hg)).trans (f.kernelRows g hg),?_,?_,
    s.tree.freeInRam,used,s.counts,fun p hp => ?_,s.caches⟩,fun t ht => (kept t ht).2⟩
  · rw [kernel]
    exact f.kernelSpace
  · intro t ht
    rcases List.mem_cons.mp ht with rfl | ht
    · rw [hroot]
      exact u
    · exact (kept t ht).1
  · refine List.pairwise_cons.mpr ⟨fun t ht g hg hgt => ?_,hrest⟩
    rw [hframes] at hg
    rcases List.mem_append.mp hg with old | made
    · exact hhead t ht g old hgt
    · exact f.used g (.inr ⟨t,List.mem_cons_of_mem _ ht,hgt⟩) (fresh g made)
  · obtain ⟨hfree,htable,hram⟩ := s.live p hp
    exact ⟨hfree,fun hg => htable (table p hg),hram⟩

theorem Family.held_congr (f : Family m₀ kroot tables held ext m) (h : ∀ p, held' p ≤ held p) :
    Family m₀ kroot tables held' ext m :=
  ⟨f.kernel,f.kernelSpace,f.kernelRows,f.user,f.apart,f.freeInRam,f.used,
    fun p => (Nat.add_le_add_right (h p) _).trans (f.counts p),f.live,f.caches⟩

theorem Family.data_of_held (f : Family m₀ kroot tables held ext m) {p : ℕ} (h : 0 < held p) :
    DataFrame m₀ kroot tables m p :=
  f.live p (lt_of_lt_of_le (Nat.add_pos_left h _) (f.counts p))

end Focus

section Handles

/-- The bytes and the entries are as before. -/
structure Untouched (tables : List PageTable) (m m' : Machine) : Prop where
  ram : m'.ram = m.ram
  pte : ∀ t ∈ tables, pteAt m' (rootFrame t) = pteAt m (rootFrame t)

theorem Untouched.refl (tables : List PageTable) (m : Machine) : Untouched tables m m :=
  ⟨rfl,fun _ _ => rfl⟩

theorem Untouched.trans {m₁ m₂ m₃ : Machine} (a : Untouched tables m₁ m₂)
    (b : Untouched tables m₂ m₃) : Untouched tables m₁ m₃ :=
  ⟨b.ram.trans a.ram,fun t ht => (b.pte t ht).trans (a.pte t ht)⟩

theorem Family.clone (f : Family m₀ kroot tables h ext m) (hpt : pt ∈ tables)
    (hp : 0 < h page.ppn) :
    Holds (arcClone page) m
      (fun r m' => r = page ∧ Family m₀ kroot tables (fun p => h p + single page p) ext m' ∧
        Untouched tables m m') (Never Panic Machine) := by
  have hstrong : 0 < m.strong page.ppn := lt_of_lt_of_le (Nat.add_pos_left hp _) (f.counts _)
  refine (arcClone_space (f.space hpt) hstrong).imp ?_
  rintro r m' ⟨rfl,s,-,hrest⟩
  have hram : m'.ram = m.ram := by rw [hrest]
  obtain ⟨f',hpte⟩ := f.step s (fun g _ => by rw [hram]) (by rw [hrest])
  exact ⟨rfl,f',hram,hpte⟩

theorem Family.handled {h' : ℕ → ℕ} {m' : Machine} (f : Family m₀ kroot tables h ext m)
    (s : Space m' pt (rootFrame pt) (AnyTable m₀ kroot tables) h' ext)
    (hstep : HandleStep m m' (rootFrame pt)) :
    Family m₀ kroot tables h' ext m' ∧ Untouched tables m m' := by
  obtain ⟨f',hpte⟩ := f.step s (fun g _ => by rw [hstep.ram]) (by rw [hstep.rest])
  exact ⟨f',hstep.ram,hpte⟩

theorem Family.drop (f : Family m₀ kroot tables (fun p => h p + single page p) ext m)
    (hpt : pt ∈ tables) : Holds (arcDrop page) m
      (fun _ m' => Family m₀ kroot tables h ext m' ∧ Untouched tables m m')
      (Never Panic Machine) := by
  refine (arcDrop_space (f.space hpt)).imp ?_
  rintro - m' ⟨s,hstep⟩
  exact f.handled s hstep

theorem Family.activate (f : Family m₀ kroot tables h ext m) (hpt : pt ∈ tables) :
    Holds (PageTable.activate pt) m
      (fun _ m' => Family m₀ kroot tables h ext m' ∧ Untouched tables m m' ∧
        m'.strong = m.strong ∧ m'.frameAllocator = m.frameAllocator) (Never Panic Machine) := by
  refine (activate_space (f.space hpt)).imp ?_
  rintro - m' ⟨s,-,hrest⟩
  have hram : m'.ram = m.ram := by rw [hrest]
  obtain ⟨f',hpte⟩ := f.step s (fun g _ => by rw [hram]) (by rw [hrest])
  exact ⟨f',⟨hram,hpte⟩,by rw [hrest],by rw [hrest]⟩

theorem Family.insert {pages : BTreeMap Page}
    (f : Family m₀ kroot tables (fun p => h p + (pagesHeld pages p + single page p)) ext m)
    (hpt : pt ∈ tables) : Holds (PhysMemoryAddr.dropReplaced pages[v]?) m
      (fun _ m' => Family m₀ kroot tables (fun p => h p + pagesHeld (pages.insert v page) p) ext
        m' ∧ Untouched tables m m') (Never Panic Machine) := by
  refine (dropReplaced_space (f.space hpt)).imp ?_
  rintro - m' ⟨s,hstep⟩
  exact f.handled s hstep

theorem Family.push {pma : PhysMemoryAddr}
    (f : Family m₀ kroot tables (fun p => h p + (pagesHeld pma.pageManager p + single page p)) ext
      m) (hpt : pt ∈ tables) : Holds (pma.pushPmaPage v page) m
      (fun r m' => r = { pma with pageManager := pma.pageManager.insert v page } ∧
        Family m₀ kroot tables (fun p => h p + pagesHeld (pma.pageManager.insert v page) p) ext
          m' ∧ Untouched tables m m') (Never Panic Machine) :=
  (f.insert hpt).bind fun _ _ done => holds_pure ⟨rfl,done⟩

end Handles

section Edits

def UserPage (v : ℕ) : Prop := v * 4096 ≤ userUpperLimit

theorem UserPage.lt (hv : UserPage v) : v < 2 ^ 52 := by
  unfold UserPage userUpperLimit at hv
  omega

theorem UserPage.accepted (hv : UserPage v) : checkUserVa (v * 4096) = true :=
  checkUserVa_of_le hv

theorem UserPage.of_succ (hv : UserPage (v + 1)) : UserPage v :=
  (Nat.mul_le_mul_right 4096 (Nat.le_succ v)).trans hv

theorem UserPage.toVirt (hv : UserPage v) : (vpnToVirt v : Kernel ℕ) m = .ok (v * 4096) m := by
  rw [vpnToVirt_eq,vpnShift_of_lt hv.lt,hv.accepted,if_pos rfl]

theorem userPage_of_le (h : va ≤ userUpperLimit) : UserPage (va / 4096) := by
  unfold UserPage
  omega

structure HeadEdit (m₀ : Machine) (kroot : ℕ) (pt pt' : PageTable) (rest : List PageTable)
    (h ext : ℕ → ℕ) (v : ℕ) (o : Option ℕ) (m m' : Machine) : Prop where
  family : Family m₀ kroot (pt' :: rest) h ext m'
  root : rootFrame pt' = rootFrame pt
  pte : pteAt m' (rootFrame pt) = update (pteAt m (rootFrame pt)) v o
  others : ∀ t ∈ rest, pteAt m' (rootFrame t) = pteAt m (rootFrame t)
  data : ∀ g, DataFrame m₀ kroot (pt :: rest) m g →
    DataFrame m₀ kroot (pt' :: rest) m' g ∧ m'.ram g = m.ram g
  strong : m'.strong = m.strong

section

variable (f : Family m₀ kroot (pt :: rest) h ext m) (hv : UserPage v)
include f hv

theorem Family.edited {o : Option ℕ}
    (ed : Edited m m' (rootFrame pt) (vaPath (v * 4096)) (vaIndex (v * 4096)) new o) :
    HeadEdit m₀ kroot pt { pt with frames := pt.frames ++ new } rest h ext v o m m' := by
  have u := f.user pt List.mem_cons_self
  have hfresh : ∀ g ∈ new, g ∈ m.frameAllocator.free := fun g hg => (ed.toExtended.fresh hg).1
  have rows : ∀ g, AnyTable m₀ kroot rest g → m'.ram g = m.ram g := by
    intro g hg
    refine ed.ram g (fun hn => ?_) fun hp => ?_
    · exact f.used g (anyTable_cons.mpr (.inr hg)) (hfresh g hn)
    · have hown := u.onPath hv hp
      rcases hg with hk | ⟨t,ht,hgt⟩
      · exact u.apart g hown hk
      · exact (List.pairwise_cons.mp f.apart).1 t ht g hown hgt
  obtain ⟨f',others⟩ := f.headStep (u.edited hv ed) rfl rfl hfresh
    (f.headSpace.extended ed.toExtended) rows (by rw [ed.rest])
  refine ⟨f',rfl,pteAt_edited ed hv.accepted,others,fun g hg => ⟨⟨?_,?_,hg.inRam⟩,?_⟩,?_⟩
  · exact fun hf => hg.used (ed.toExtended.free_sub hf)
  · intro hany
    rcases anyTable_cons.mp hany with hown | hrest
    · rcases List.mem_append.mp hown with old | made
      · exact hg.noTable (anyTable_cons.mpr (.inl old))
      · exact hg.used (hfresh g made)
    · exact hg.noTable (anyTable_cons.mpr (.inr hrest))
  · exact ed.ram g (fun hn => hg.used (hfresh g hn)) fun hp =>
      hg.noTable (.inr ⟨pt,List.mem_cons_self,u.onPath hv hp⟩)
  · rw [ed.rest]

theorem Family.mapOne (ppn : ℕ) (flags : PTEFlags) :
    Holds (PageTable.mapOne pt v ppn flags) m
      (fun pt' m' => pteAt m (rootFrame pt) v = none ∧
        HeadEdit m₀ kroot pt pt' rest h ext v (some (mappedWord ppn flags)) m m')
      (fun e _ => e = .outOfFrames ∨ pteAt m (rootFrame pt) v ≠ none) := by
  have s := f.headSpace
  have spec := mapOne_holds s.tree s.rootPaddr v ppn flags
  rw [vpnShift_of_lt hv.lt] at spec
  refine spec.mono ?_ ?_
  · rintro pt' m' ⟨hc,hnone,new,rfl,-,ed⟩
    exact ⟨(pteAt_accepted hc).trans hnone,f.edited hv ed⟩
  · rintro e m' (⟨-,hc,-⟩ | ⟨hc,⟨he,-⟩ | ⟨-,hsome⟩,-⟩)
    · rw [hv.accepted] at hc
      cases hc
    · exact .inl he
    · refine .inr ?_
      rw [pteAt_accepted hc]
      exact hsome

theorem Family.unmap :
    Holds (PageTable.unmap pt v) m (fun _ m' => HeadEdit m₀ kroot pt pt rest h ext v none m m')
      (Never Panic Machine) := by
  have s := f.headSpace
  have spec := unmap_holds s.tree s.rootPaddr v
  rw [vpnShift_of_lt hv.lt] at spec
  refine spec.mono ?_ ?_
  · rintro - m' ⟨-,ed⟩
    have edit := f.edited hv ed
    rwa [List.append_nil] at edit
  · rintro e m' ⟨-,hc,-⟩
    rw [hv.accepted] at hc
    cases hc

end

theorem Family.translate (f : Family m₀ kroot tables h ext m) (hpt : pt ∈ tables)
    (hva : va ≤ userUpperLimit) :
    PageTable.translateVaToPte pt va m = .ok (slotAt m (rootFrame pt) va) m := by
  have s := f.space hpt
  have hfind := findPte_eq s.tree s.rootPaddr va
  rwa [checkUserVa_of_le hva,if_pos rfl] at hfind

theorem entryAt_user (m : Machine) (root : ℕ) (hva : va ≤ userUpperLimit) :
    entryAt m root va = pteAt m root (va / 4096) := by
  have hpage := (userPage_of_le hva).accepted
  have hpath := (path_eq_iff (checkUserVa_of_le hva) hpage).mpr (by omega)
  rw [pteAt_accepted hpage,entryAt,entryAt,hpath.1,hpath.2]

theorem slotAt_user (hva : va ≤ userUpperLimit) (hw : pteAt m root (va / 4096) = some w) :
    ∃ slot, slotAt m root va = some slot ∧ pteWord m slot.frame slot.index = w :=
  entryAt_eq_some ((entryAt_user m root hva).trans hw)

theorem pteAt_valid (h : pteAt m root v = some w) :
    PageTableEntry.isValid w = true ∧ w < 2 ^ 64 := by
  unfold pteAt at h
  split at h
  · obtain ⟨slot,hslot,rfl⟩ := entryAt_eq_some h
    exact ⟨(slotAt_eq_some hslot).2.2.1,pteWord_lt m _ _⟩
  · cases h

theorem Family.rewrite (f : Family m₀ kroot (pt :: rest) h ext m) (hv : UserPage v) {slot : Slot}
    (hslot : slotAt m (rootFrame pt) (v * 4096) = some slot) {word : ℕ} (hw : word < 2 ^ 64) :
    HeadEdit m₀ kroot pt pt rest h ext v
      (if PageTableEntry.isValid word then some word else none) m (putPte m slot word) := by
  have s := f.headSpace
  have edit := f.edited hv (putPte_slotAt_edited s.tree hslot hw)
  rwa [List.append_nil] at edit

end Edits

section NewTables

theorem tableFrame_eq (rows : ∀ g, TableFrame m₀ kroot g → m.ram g = m₀.ram g) :
    TableFrame m kroot = TableFrame m₀ kroot := by
  funext g
  refine propext ⟨?_,?_⟩
  · rintro ⟨p,hp,hg⟩
    rw [reachIn_unwritten rows (by omega)] at hg
    exact ⟨p,hp,hg⟩
  · rintro ⟨p,hp,hg⟩
    refine ⟨p,hp,?_⟩
    rw [reachIn_unwritten rows (by omega)]
    exact hg

theorem userTable_rebase (u : UserTable m m' kroot pt root)
    (rows : ∀ g, TableFrame m₀ kroot g → m.ram g = m₀.ram g) : UserTable m₀ m' kroot pt root := by
  have heq := tableFrame_eq rows
  have htree := u.tree
  have hrows := u.rows
  have hapart := u.apart
  rw [heq] at htree hrows hapart
  refine ⟨u.rootPaddr,htree,hapart,u.rootOwn,u.own,fun i r j hi hr => ?_,fun g hg => ?_⟩
  · rw [u.shared i r j hi hr]
    exact lookupIn_unwritten rows (by rw [List.length_cons]; omega) j
  · rw [hrows g hg]
    exact rows g hg

structure NewTable (m₀ : Machine) (kroot : ℕ) (tables : List PageTable) (h ext : ℕ → ℕ)
    (m : Machine) (pt : PageTable) (m' : Machine) : Prop where
  family : Family m₀ kroot (pt :: tables) h ext m'
  empty : ∀ v, UserPage v → pteAt m' (rootFrame pt) v = none
  pte : ∀ t ∈ tables, pteAt m' (rootFrame t) = pteAt m (rootFrame t)
  bytes : ∀ g, DataFrame m₀ kroot tables m g → m'.ram g = m.ram g

theorem Family.newUser (f : Family m₀ kroot tables h ext m) :
    Holds PageTable.newUser m (NewTable m₀ kroot tables h ext m)
      (fun e _ => e = .outOfFrames) := by
  obtain ⟨table,hkernel,hroot⟩ := f.kernelSpace
  cases ha : m.frameAllocator.alloc with
  | none => exact holds_error (bind_error (allocFrameUnwrap_none ha)) rfl
  | some taken =>
    obtain ⟨x,free⟩ := taken
    have hmem := alloc_mem ha
    have sub := alloc_sub ha
    have heq := tableFrame_eq f.kernelRows
    have kt : Tree m kroot (TableFrame m kroot) := by
      rw [heq]
      exact tree_rows f.kernel f.kernelRows (fun g hg => f.used g (.inl hg)) f.freeInRam
    have hx : ∀ g, AnyTable m₀ kroot tables g → g ≠ x := by
      rintro g hg rfl
      exact f.used _ hg hmem
    have rows : ∀ g, AnyTable m₀ kroot tables g → (copySlots m kroot x free).ram g = m.ram g :=
      fun g hg => copySlots_ram free (hx g hg)
    have u := userTable_rebase (copySlots_userTable kt ha) f.kernelRows
    have hxroot : rootFrame ⟨x * 4096,[x]⟩ = x := rootFrame_of_eq rfl
    have used : ∀ g, AnyTable m₀ kroot tables g → g ∉ free.free :=
      fun g hg hf => f.used g hg (sub g hf)
    have kept : ∀ t ∈ tables, UserTable m₀ (copySlots m kroot x free) kroot t (rootFrame t) ∧
        pteAt (copySlots m kroot x free) (rootFrame t) = pteAt m (rootFrame t) :=
      fun t ht => userTable_kept (f.user t ht) (fun g hg => rows g (anyTable_own ht hg))
        (fun g hg => used g (anyTable_own ht hg)) fun g hg => f.freeInRam g (sub g hg)
    have split : ∀ g, AnyTable m₀ kroot (⟨x * 4096,[x]⟩ :: tables) g →
        g = x ∨ AnyTable m₀ kroot tables g :=
      fun g hg => (anyTable_cons.mp hg).imp List.mem_singleton.mp id
    refine holds_ok (newUser_eq hkernel hroot kt ha) ⟨⟨f.kernel,⟨table,hkernel,hroot⟩,
      fun g hg => (rows g (.inl hg)).trans (f.kernelRows g hg),?_,?_,
      fun g hg => f.freeInRam g (sub g hg),?_,f.counts,?_,f.caches⟩,?_,
      fun t ht => (kept t ht).2,?_⟩
    · intro t ht
      rcases List.mem_cons.mp ht with rfl | ht
      · rw [hxroot]
        exact u
      · exact (kept t ht).1
    · refine List.pairwise_cons.mpr ⟨fun t ht g hg hgt => ?_,f.apart⟩
      exact hx g (.inr ⟨t,ht,hgt⟩) (List.mem_singleton.mp hg)
    · intro g hg hf
      rcases split g hg with rfl | hg
      · exact alloc_not_mem ha hf
      · exact used g hg hf
    · intro p hp
      have data := f.live p hp
      refine ⟨fun hf => data.used (sub p hf),fun hg => ?_,data.inRam⟩
      rcases split p hg with rfl | hg
      · exact data.used hmem
      · exact data.noTable hg
    · intro v hv
      rw [hxroot,pteAt_accepted hv.accepted]
      exact copySlots_entry (fun hk => kt.notFree x hk hmem) hv
    · intro g hg
      refine copySlots_ram free ?_
      rintro rfl
      exact hg.used hmem

end NewTables

section Copies

structure Taken (m₀ : Machine) (kroot : ℕ) (tables : List PageTable) (h ext : ℕ → ℕ)
    (row : ℕ → UInt8) (m : Machine) (page : Page) (m' : Machine) : Prop where
  fresh : page.ppn ∈ m.frameAllocator.free
  family : Family m₀ kroot tables h ext m'
  pte : ∀ t ∈ tables, pteAt m' (rootFrame t) = pteAt m (rootFrame t)
  bytes : m'.ram page.ppn = row
  others : ∀ g, g ≠ page.ppn → m'.ram g = m.ram g
  data : ∀ g, DataFrame m₀ kroot tables m g → DataFrame m₀ kroot tables m' g
  loose : DataFrame m₀ kroot tables m' page.ppn
  unheld : m'.strong page.ppn = 0
  strong : m'.strong = m.strong

section

variable (f : Family m₀ kroot tables h ext m)
include f

theorem Family.taken {free : FrameAllocator}
    (hpt : pt ∈ tables) (ha : m.frameAllocator.alloc = some (page.ppn, free)) (row : ℕ → UInt8) :
    Taken m₀ kroot tables h ext row m page (setRow (takeFrame m page.ppn free) page.ppn row) := by
  have hmem := alloc_mem ha
  have hothers : ∀ g, g ≠ page.ppn →
      (setRow (takeFrame m page.ppn free) page.ppn row).ram g = m.ram g := by
    intro g hg
    exact (update_of_ne hg _ _).trans (takeFrame_ram_ne m free hg)
  obtain ⟨s',-,hzero,hused,htable,hram⟩ := (f.space hpt).allocated ha hothers rfl rfl rfl
  have hnew : ∀ g, AnyTable m₀ kroot tables g → g ≠ page.ppn := by
    rintro g hg rfl
    exact f.used _ hg hmem
  obtain ⟨f',hpte⟩ := f.step s' (fun g hg => hothers g (hnew g hg)) rfl
  exact ⟨hmem,f',hpte,update_self _ _ _,hothers,
    fun g hg => ⟨fun hf => hg.used (alloc_sub ha g hf),hg.noTable,hg.inRam⟩,
    ⟨hused,fun hg => htable (.inr hg),hram⟩,hzero,rfl⟩

theorem Family.copy (hpt : pt ∈ tables) {ppn : ℕ} (hp : 0 < h ppn) (permission : PagePermission) :
    Holds (Page.newFromPage ppn permission) m (Taken m₀ kroot tables h ext (m.ram ppn) m)
      (fun e _ => e = .outOfFrames) := by
  have hsource := f.data_of_held hp
  cases ha : m.frameAllocator.alloc with
  | none => exact holds_error (bind_error (allocFrameUnwrap_none ha)) rfl
  | some taken =>
    obtain ⟨x,free⟩ := taken
    have made : Taken m₀ kroot tables h ext (m.ram ppn) m ⟨x,permission,none⟩ _ :=
      f.taken hpt ha (m.ram ppn)
    have hx := made.loose.inRam
    have hne : ppn ≠ x := by
      rintro rfl
      exact hsource.used made.fresh
    refine holds_ok ?_ made
    unfold Page.newFromPage
    rw [bind_ok (allocFrameUnwrap_some ha hx),bind_ok (byteArray_frame hx _),
      bind_ok (byteArray_frame hsource.inRam _)]
    have hcopy : copyFrame x ppn (takeFrame m x free) =
        .ok () (setRow (takeFrame m x free) x (m.ram ppn)) := by
      rw [← takeFrame_ram_ne m free hne]
      rfl
    rw [bind_ok hcopy]
    rfl

theorem Family.adopt (hpt : pt ∈ tables)
    (loose : DataFrame m₀ kroot tables m page.ppn) (unheld : m.strong page.ppn = 0) :
    Holds (arcNew page) m
      (fun r m' => r = page ∧ Family m₀ kroot tables (fun p => h p + single page p) ext m' ∧
        Untouched tables m m') (Never Panic Machine) := by
  have s := (f.space hpt).counted page (Nat.lt_one_iff.mpr unheld)
    ⟨loose.used,fun hg => loose.noTable (anyTable_tableOf hpt hg),loose.inRam⟩
  obtain ⟨f',hpte⟩ := f.step s (fun _ _ => rfl) rfl
  exact holds_ok rfl ⟨rfl,f',rfl,hpte⟩

theorem Family.store (hpt : pt ∈ tables) {g : ℕ}
    (hg : DataFrame m₀ kroot tables m g) (row : ℕ → UInt8) :
    Family m₀ kroot tables h ext (setRow m g row) ∧
      ∀ t ∈ tables, pteAt (setRow m g row) (rootFrame t) = pteAt m (rootFrame t) := by
  have hne : ∀ t, AnyTable m₀ kroot tables t → t ≠ g := by
    rintro t ht rfl
    exact hg.noTable ht
  have rows : ∀ t, AnyTable m₀ kroot tables t → (setRow m g row).ram t = m.ram t :=
    fun t ht => update_of_ne (hne t ht) _ _
  have written := (f.space hpt).dataWrite (fun t ht => rows t (anyTable_tableOf hpt ht)) rfl rfl rfl
  exact f.step written.1 rows rfl

theorem Family.fresh (hpt : pt ∈ tables) (per : PagePermission) :
    Holds (Page.new per) m (Taken m₀ kroot tables h ext (fun _ => 0) m)
      (fun e _ => e = .outOfFrames) := by
  cases ha : m.frameAllocator.alloc with
  | none => exact holds_error (bind_error (allocFrameUnwrap_none ha)) rfl
  | some taken =>
    obtain ⟨x,free⟩ := taken
    have made : Taken m₀ kroot tables h ext (fun _ => 0) m ⟨x,per,none⟩ _ :=
      f.taken hpt ha fun _ => 0
    refine holds_ok ?_ made
    unfold Page.new
    rw [bind_ok (allocFrameUnwrap_some ha made.loose.inRam)]
    simp only [takeFrame,setRow,update_idem]
    rfl

end

structure MappedFresh (m₀ : Machine) (kroot : ℕ) (pt pt' : PageTable) (rest : List PageTable)
    (h ext : ℕ → ℕ) (vma : VirtMemoryAddr) (v : ℕ) (page : Page) (m m' : Machine) : Prop where
  family : Family m₀ kroot (pt' :: rest)
    (fun p => h p + pagesHeld (vma.pma.pageManager.insert v page) p) ext m'
  root : rootFrame pt' = rootFrame pt
  pte : pteAt m' (rootFrame pt) = update (pteAt m (rootFrame pt)) v
    (some (mappedWord page.ppn (pteFlagsFrom vma.mapPermission)))
  others : ∀ t ∈ rest, pteAt m' (rootFrame t) = pteAt m (rootFrame t)
  fresh : page.ppn ∈ m.frameAllocator.free
  inRam : InRam page.ppn
  bytes : ∀ g, g ≠ page.ppn → 0 < h g + pagesHeld (vma.pma.pageManager.insert v page) g →
    m'.ram g = m.ram g

theorem Family.mapFresh {vma : VirtMemoryAddr}
    (f : Family m₀ kroot (pt :: rest) (fun p => h p + pagesHeld vma.pma.pageManager p) ext m)
    (hv : UserPage v) (framed : vma.mapType = .framed) : Holds (vma.mapOne pt v none) m
      (fun r m' => ∃ page : Page, r.1 = { vma with pma :=
          { vma.pma with pageManager := vma.pma.pageManager.insert v page } } ∧
        MappedFresh m₀ kroot pt r.2.1 rest h ext vma v page m m')
      (fun e _ => e = .outOfFrames ∨ pteAt m (rootFrame pt) v ≠ none) := by
  have hpt : pt ∈ pt :: rest := List.mem_cons_self
  have stage : Holds (vma.dataPage none) m
      (fun page m₂ => page.ppn ∈ m.frameAllocator.free ∧ InRam page.ppn ∧
        Family m₀ kroot (pt :: rest) (fun p => h p + (pagesHeld vma.pma.pageManager p +
          single page p)) ext m₂ ∧ (∀ t ∈ pt :: rest, pteAt m₂ (rootFrame t) =
          pteAt m (rootFrame t)) ∧ ∀ g, g ≠ page.ppn → m₂.ram g = m.ram g)
      (fun e _ => e = .outOfFrames) := by
    refine (f.fresh hpt _).bind fun page m₁ made => ?_
    refine (made.family.adopt hpt made.loose made.unheld).weaken.imp ?_
    rintro _ m₂ ⟨rfl,f₂,same⟩
    refine ⟨made.fresh,made.loose.inRam,f₂.held_congr fun p => by omega,fun t ht => ?_,
      fun g hg => ?_⟩
    · rw [same.pte t ht,made.pte t ht]
    · rw [same.ram,made.others g hg]
  unfold VirtMemoryAddr.mapOne
  rw [framed]
  refine (stage.onError fun _ _ he => .inl he).bind ?_
  rintro page m₂ ⟨hfresh,hram,f₂,hpte,hbytes⟩
  refine (f₂.push hpt).weaken.bind ?_
  rintro _ m₃ ⟨rfl,f₃,same⟩
  have hpte₃ : ∀ t ∈ pt :: rest, pteAt m₃ (rootFrame t) = pteAt m (rootFrame t) :=
    fun t ht => (same.pte t ht).trans (hpte t ht)
  refine ((f₃.mapOne hv page.ppn (pteFlagsFrom vma.mapPermission)).onError ?_).bind ?_
  · rintro e - (he | he)
    · exact .inl he
    · rw [hpte₃ pt hpt] at he
      exact .inr he
  rintro pt' m' ⟨-,mapped⟩
  refine holds_pure ⟨page,rfl,mapped.family,mapped.root,?_,fun t ht => ?_,hfresh,hram,
    fun g hg hheld => ?_⟩
  · rw [mapped.pte,hpte₃ pt hpt]
  · rw [mapped.others t ht,hpte₃ t (List.mem_cons_of_mem pt ht)]
  · rw [(mapped.data g (f₃.data_of_held hheld)).2,same.ram,hbytes g hg]

end Copies

end DuckOs.TableFamilies
