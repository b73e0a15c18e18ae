import DuckOs.PageInstalls

namespace DuckOs.SegmentPush
open ExecutionRules AddressModel PermissionFlags KernelMachine PageTableModel PageTableTree Function
open PageTableOperations PageModel VirtMemoryModel MemorySetModel
open FrameOwnership SegmentViews SegmentUnmap AreaUnmap PageInstalls
open OrderedMaps

variable {n v g k first root : ℕ} {pages : BTreeMap Page} {page : Page} {vma : VirtMemoryAddr}
  {pte : ℕ → Option ℕ} {flags : PTEFlags} {pt₁ pt₂ pt : PageTable} {m₁ m₂ m : Machine}
  {K : ℕ → Prop} {h ext : ℕ → ℕ}

section Growth

variable {m₃ : Machine} {pt₃ : PageTable}

/-- Frames were taken from the allocator, at most `n`, for tables and for new pages. Whatever
was neither free nor a table is as before. -/
structure Growth (m m' : Machine) (pt pt' : PageTable) (K : ℕ → Prop) (n : ℕ) : Prop where
  rest : m' = { m with
    ram := m'.ram, frameAllocator := m'.frameAllocator, strong := m'.strong }
  data : ∀ g, g ∉ m.frameAllocator.free → ¬ TableOf pt K g → m'.ram g = m.ram g
  counts : ∀ g, g ∉ m.frameAllocator.free → m'.strong g = m.strong g
  taken : ∃ new, m.frameAllocator.free = new ++ m'.frameAllocator.free ∧ new.length ≤ n ∧
    ∀ g ∈ pt'.frames, g ∈ pt.frames ∨ g ∈ new

theorem Growth.refl (m : Machine) (pt : PageTable) (K : ℕ → Prop) (n : ℕ) :
    Growth m m pt pt K n :=
  ⟨rfl,fun _ _ _ => rfl,fun _ _ => rfl,[],rfl,Nat.zero_le n,fun _ hg => .inl hg⟩

section

variable (a : Growth m₁ m₂ pt₁ pt₂ K n)
include a

theorem Growth.free_sub (hg : g ∈ m₂.frameAllocator.free) : g ∈ m₁.frameAllocator.free := by
  obtain ⟨new,hfree,-⟩ := a.taken
  rw [hfree]
  exact List.mem_append_right new hg

theorem Growth.not_table (hfree : g ∉ m₁.frameAllocator.free)
    (hg : ¬ TableOf pt₁ K g) : ¬ TableOf pt₂ K g := by
  obtain ⟨new,hnew,-,hframes⟩ := a.taken
  rintro (hf | hk)
  · rcases hframes g hf with old | made
    · exact hg (.inl old)
    · refine hfree ?_
      rw [hnew]
      exact List.mem_append_left _ made
  · exact hg (.inr hk)

theorem Growth.trans (b : Growth m₂ m₃ pt₂ pt₃ K k) : Growth m₁ m₃ pt₁ pt₃ K (n + k) := by
  refine ⟨?_,?_,?_,?_⟩
  · rw [b.rest,a.rest]
  · intro g hfree htable
    rw [b.data g (fun hc => hfree (a.free_sub hc)) (a.not_table hfree htable)]
    exact a.data g hfree htable
  · intro g hfree
    rw [b.counts g fun hc => hfree (a.free_sub hc)]
    exact a.counts g hfree
  · obtain ⟨new,hnew,hlen,hframes⟩ := a.taken
    obtain ⟨new',hnew',hlen',hframes'⟩ := b.taken
    refine ⟨new ++ new',?_,?_,fun g hg => ?_⟩
    · rw [hnew,hnew',List.append_assoc]
    · rw [List.length_append]
      omega
    · rcases hframes' g hg with mid | made
      · rcases hframes g mid with old | made
        · exact .inl old
        · exact .inr (List.mem_append_left _ made)
      · exact .inr (List.mem_append_right _ made)

theorem Growth.weaken (h : n ≤ k) : Growth m₁ m₂ pt₁ pt₂ K k := by
  obtain ⟨new,hnew,hlen,hframes⟩ := a.taken
  exact ⟨a.rest,a.data,a.counts,new,hnew,hlen.trans h,hframes⟩

end

theorem growth_of_tables (a : TableGrowth m₁ m₂ pt₁ pt₂ K n) :
    Growth m₁ m₂ pt₁ pt₂ K n := by
  obtain ⟨new,hnew,hlen,rfl⟩ := a.taken
  refine ⟨?_,a.data,fun g _ => ?_,new,hnew,hlen,fun g hg => ?_⟩
  · rw [a.rest]
  · rw [a.rest]
  · exact List.mem_append.mp hg

end Growth

section MapOne

def withPage (vma : VirtMemoryAddr) (vpn : ℕ) (page : Page) : VirtMemoryAddr :=
  { vma with pma := { vma.pma with pageManager := vma.pma.pageManager.insert vpn page } }

structure Mapped (m : Machine) (pt : PageTable) (root : ℕ) (K : ℕ → Prop) (h ext : ℕ → ℕ)
    (vma : VirtMemoryAddr) (vpn : ℕ) (page : Page) (pt' : PageTable) (m' : Machine) : Prop where
  accepted : checkUserVa (vpn * 4096) = true
  unmapped : pteAt m root vpn = none
  space : Space m' pt' root K (fun p => h p + vmaHeld (withPage vma vpn page) p) ext
  pte : pteAt m' root = update (pteAt m root) vpn
    (some (mappedWord page.ppn (pteFlagsFrom vma.mapPermission)))
  growth : Growth m m' pt pt' K 3
  fresh : page.ppn ∈ m.frameAllocator.free
  plain : page.diskFile = none
  zero : m'.ram page.ppn = fun _ => 0

theorem mapFresh_space (vma : VirtMemoryAddr) {vpn : ℕ} (hv : vpn < 2 ^ 52)
    (framed : vma.mapType = .framed) (hnew : vma.pma.pageManager[vpn]? = none)
    (s : Space m pt root K (fun p => h p + vmaHeld vma p) ext) :
    Holds (vma.mapOne pt vpn none) m
      (fun r m' => ∃ page, r.1 = withPage vma vpn page ∧ r.2.2 = page.ppn ∧
        Mapped m pt root K h ext vma vpn page r.2.1 m')
      (fun _ _ => ¬ (checkUserVa (vpn * 4096) = true ∧ pteAt m root vpn = none ∧
        3 ≤ m.frameAllocator.free.length)) := by
  unfold VirtMemoryAddr.mapOne
  split
  · rename_i hd
    rw [framed] at hd
    cases hd
  refine Holds.bind (R := fun page m' =>
    Space m' pt root K (fun p => (h p + vmaHeld vma p) + single page p) ext ∧
      pteAt m' root = pteAt m root ∧
      page.diskFile = none ∧ ∃ rest, m.frameAllocator.alloc = some (page.ppn, rest) ∧
        m' = { takeFrame m page.ppn rest with
          strong := update m.strong page.ppn 1 }) ?_ ?_
  · refine (pageNew_space s (pagePermissionFrom vma.mapPermission)).mono ?_ ?_
    · rintro page m' ⟨s',hpte,rest,ha,hpage,hm⟩
      refine ⟨s',hpte,?_,rest,ha,hm⟩
      rw [hpage]
    · rintro e m' hfree ⟨-,-,hlen⟩
      rw [hfree] at hlen
      exact absurd hlen (by decide)
  rintro page m₁ ⟨s₁,hpte₁,hplain,rest,ha,hm₁⟩
  have hfree := alloc_eq_some ha
  have s₁' : Space m₁ pt root K
      (fun p => h p + (pagesHeld vma.pma.pageManager p + single page p)) ext :=
    s₁.held_congr fun p => by unfold vmaHeld; omega
  refine Holds.bind (R := fun r m' => r = (withPage vma vpn page).pma ∧ m₁ = m' ∧
    Space m' pt root K (fun p => h p + vmaHeld (withPage vma vpn page) p) ext) ?_ ?_
  · have spec := pushPmaPage_space vma.pma vpn page s₁'
    unfold PhysMemoryAddr.pushPmaPage at spec ⊢
    rw [hnew] at spec ⊢
    exact ⟨rfl,rfl,(spec.of_ok rfl).2.1⟩
  rintro _ _ ⟨rfl,rfl,s₂⟩
  have hrest : m₁.frameAllocator = rest := by rw [hm₁]; rfl
  have hlen : m.frameAllocator.free.length = m₁.frameAllocator.free.length + 1 := by
    rw [hfree,hrest,List.length_cons]
  refine ((ptMapOne_space s₂ hv page.ppn (pteFlagsFrom vma.mapPermission)).onError ?_).bind ?_
  · rintro e m' hfail ⟨hva,hnone,henough⟩
    rcases hfail with hc | hc | hc
    · rw [hva] at hc
      cases hc
    · rw [hpte₁] at hc
      exact hc hnone
    · omega
  rintro pt' m₂ ⟨hva,hnone,s₃,hpte₂,hgrown⟩
  have hlive : page.ppn ∉ m₁.frameAllocator.free ∧ ¬ TableOf pt K page.ppn := by
    have hc := s₁.counts page.ppn
    rw [single_self] at hc
    obtain ⟨hf,ht,-⟩ := s₁.live page.ppn (by omega)
    exact ⟨hf,ht⟩
  have hother : ∀ g, g ∉ m.frameAllocator.free → g ≠ page.ppn := by
    rintro g hg rfl
    refine hg ?_
    rw [hfree]
    exact List.mem_cons_self
  have first : Growth m m₁ pt pt K 1 := by
    refine ⟨?_,fun g hg _ => ?_,fun g hg => ?_,[page.ppn],?_,le_rfl,fun g hg => .inl hg⟩
    · rw [hm₁]
      rfl
    · rw [hm₁]
      exact takeFrame_ram_ne m rest (hother g hg)
    · rw [hm₁]
      exact update_of_ne (hother g hg) _ _
    · rw [hfree,hrest]
      rfl
  refine holds_pure ⟨page,rfl,rfl,hva,?_,s₃,?_,first.trans (growth_of_tables hgrown),?_,hplain,?_⟩
  · rw [← hpte₁]
    exact hnone
  · rw [hpte₂,hpte₁]
  · rw [hfree]
    exact List.mem_cons_self
  · rw [hgrown.data _ hlive.1 hlive.2,hm₁]
    exact takeFrame_ram_self m page.ppn rest

end MapOne

section MapAll

def withPages (vma : VirtMemoryAddr) (pages : BTreeMap Page) : VirtMemoryAddr :=
  { vma with pma := { vma.pma with pageManager := pages } }

def overlay (pte : ℕ → Option ℕ) (pages : BTreeMap Page) (flags : PTEFlags) : ℕ → Option ℕ :=
  fun v => pages[v]?.elim (pte v) fun page => some (mappedWord page.ppn flags)

theorem overlay_some (hv : pages[v]? = some page) :
    overlay pte pages flags v = some (mappedWord page.ppn flags) := by
  rw [overlay,hv]
  rfl

theorem overlay_none (hv : pages[v]? = none) : overlay pte pages flags v = pte v := by
  rw [overlay,hv]
  rfl

theorem overlay_insert (pte : ℕ → Option ℕ) (pages : BTreeMap Page) (flags : PTEFlags) (v : ℕ)
    (page : Page) : overlay pte (pages.insert v page) flags =
      update (overlay pte pages flags) v (some (mappedWord page.ppn flags)) := by
  funext u
  by_cases hu : u = v
  · have hin : (pages.insert v page)[v]? = some page := by rw [getElem?_insert,if_pos rfl]
    rw [hu,update_self,overlay_some hin]
  · rw [update_of_ne hu,overlay,overlay,getElem?_insert,if_neg hu]

theorem page_live
    (s : Space m pt root K (fun p => h p + vmaHeld vma p) ext)
    (hv : vma.pma.pageManager[v]? = some page) : 0 < m.strong page.ppn := by
  have hc := s.counts page.ppn
  have hw := weightAt_le_total (fun q => single q page.ppn) vma.pma.pageManager v
  rw [weightAt_some hv,single_self] at hw
  unfold vmaHeld pagesHeld at hc
  omega

structure Populated (m : Machine) (pt : PageTable) (root : ℕ) (K : ℕ → Prop) (h ext : ℕ → ℕ)
    (vma : VirtMemoryAddr) (first n : ℕ) (pages : BTreeMap Page) (pt' : PageTable) (m' : Machine) :
    Prop where
  keys : ∀ v : ℕ, pages[v]? ≠ none ↔ first ≤ v ∧ v < first + n
  unmapped : ∀ v, first ≤ v → v < first + n →
    checkUserVa (v * 4096) = true ∧ pteAt m root v = none
  space : Space m' pt' root K (fun p => h p + vmaHeld (withPages vma pages) p) ext
  pte : pteAt m' root = overlay (pteAt m root) pages (pteFlagsFrom vma.mapPermission)
  growth : Growth m m' pt pt' K (3 * n)
  fresh : ∀ (v : ℕ) (page : Page), pages[v]? = some page → page.ppn ∈ m.frameAllocator.free
  distinct : ∀ (v v' : ℕ) (page page' : Page), pages[v]? = some page → pages[v']? = some page' →
    page.ppn = page'.ppn → v = v'
  plain : ∀ (v : ℕ) (page : Page), pages[v]? = some page → page.diskFile = none
  zero : ∀ (v : ℕ) (page : Page), pages[v]? = some page → m'.ram page.ppn = fun _ => 0

theorem Populated.next (a : Populated m pt root K h ext vma first n pages pt₁ m₁)
    (b : Mapped m₁ pt₁ root K h ext (withPages vma pages) (first + n) page pt₂ m₂) :
    Populated m pt root K h ext vma first (n + 1) (pages.insert (first + n) page) pt₂ m₂ := by
  have hout : pages[first + n]? = none := by
    by_contra hc
    have := (a.keys _).mp hc
    omega
  have hlive : ∀ (v : ℕ) (q : Page), pages[v]? = some q →
      q.ppn ∉ m₁.frameAllocator.free ∧ ¬ TableOf pt₁ K q.ppn := fun v q hq => by
    have hl : (withPages vma pages).pma.pageManager[v]? = some q := hq
    obtain ⟨hf,ht,-⟩ := a.space.live q.ppn (page_live a.space hl)
    exact ⟨hf,ht⟩
  refine ⟨fun v => ?_,fun v h₁ h₂ => ?_,b.space,?_,?_,
    forall_insert a.fresh (a.growth.free_sub b.fresh),fun v v' q q' hq hq' he => ?_,
    forall_insert a.plain b.plain,forall_insert (fun v q hq => ?_) b.zero⟩
  · rw [getElem?_insert]
    by_cases hv : v = first + n
    · rw [if_pos hv]
      simp only [ne_eq,reduceCtorEq,not_false_eq_true,true_iff]
      omega
    · rw [if_neg hv,a.keys]
      omega
  · by_cases hv : v = first + n
    · have hnone := b.unmapped
      rw [a.pte,overlay_none hout] at hnone
      rw [hv]
      exact ⟨b.accepted,hnone⟩
    · exact a.unmapped v h₁ (by omega)
  · rw [b.pte,a.pte,overlay_insert]
    rfl
  · exact (a.growth.trans b.growth).weaken (by omega)
  · rw [getElem?_insert] at hq hq'
    split at hq <;> split at hq'
    · omega
    · cases hq
      exact absurd (he ▸ b.fresh) (hlive v' q' hq').1
    · cases hq'
      exact absurd (he ▸ b.fresh) (hlive v q hq).1
    · exact a.distinct v v' q q' hq hq' he
  · rw [b.growth.data _ (hlive v q hq).1 (hlive v q hq).2]
    exact a.zero v q hq

section

variable (vma) (framed : vma.mapType = .framed) (hempty : vma.pma.pageManager = ∅)
  (s : Space m pt root K (fun p => h p + vmaHeld vma p) ext)
include framed hempty s

theorem mapLoop_space : ∀ n, first + n ≤ 2 ^ 52 →
    Holds ((List.range' first n).foldlM (fun s vpn => do
        let r ← VirtMemoryAddr.mapOne s.1 s.2 vpn none
        pure (r.1, r.2.1)) (vma, pt)) m
      (fun r m' => ∃ pages, r.1 = withPages vma pages ∧
        Populated m pt root K h ext vma first n pages r.2 m')
      (fun _ _ => True) := by
  intro n
  induction n with
  | zero =>
    intro _
    have hself : withPages vma ∅ = vma := by
      unfold withPages
      rw [← hempty]
    refine holds_pure ⟨∅,hself.symm,?_⟩
    have hnone : ∀ v : ℕ, (∅ : BTreeMap Page)[v]? = none := fun v =>
      Std.ExtTreeMap.getElem?_empty
    refine ⟨fun v => ?_,fun v h₁ h₂ => ?_,?_,?_,Growth.refl m pt K _,nofun,nofun,nofun,
      nofun⟩
    · rw [hnone]
      simp only [ne_eq,not_true_eq_false,false_iff]
      omega
    · omega
    · rw [hself]
      exact s
    · funext v
      rw [overlay_none (hnone v)]
  | succ n ih =>
    intro hn
    rw [List.range'_concat,List.foldlM_append]
    refine (ih (by omega)).bind ?_
    rintro ⟨_,pt₁⟩ m₁ ⟨pages,rfl,done⟩
    rw [Nat.one_mul,List.foldlM_cons]
    have hout : (withPages vma pages).pma.pageManager[first + n]? = none := by
      by_contra hc
      have := (done.keys _).mp hc
      omega
    refine Holds.bind (R := fun r m' => ∃ pages, r.1 = withPages vma pages ∧
      Populated m pt root K h ext vma first (n + 1) pages r.2 m') ?_ fun _ _ h => holds_pure h
    have hv : first + n < 2 ^ 52 := by omega
    have one := mapFresh_space (withPages vma pages) hv framed hout done.space
    refine one.orAny.bind ?_
    rintro ⟨_,pt₂,_⟩ m₂ ⟨page,rfl,rfl,mapped⟩
    exact holds_pure ⟨pages.insert (first + n) page,rfl,done.next mapped⟩

theorem mapSelfAll_space : Holds (vma.mapSelfAll pt) m
      (fun r m' => ∃ pages, r.1 = withPages vma pages ∧
        Populated m pt root K h ext vma (vma.startVaddr / 4096)
          (vma.endVaddr / 4096 - vma.startVaddr / 4096) pages r.2 m')
      (fun _ _ => True) := by
  unfold VirtMemoryAddr.mapSelfAll VirtMemoryAddr.vmaRange
  simp only [bind_assoc,pure_bind]
  refine (virtToVpn_holds _).orAny.bind ?_
  rintro _ _ ⟨rfl,rfl,hfirst⟩
  refine (virtToVpn_holds _).orAny.bind ?_
  rintro _ _ ⟨rfl,rfl,hlast⟩
  have h₁ := checkUserVa_lt hfirst
  have h₂ := checkUserVa_lt hlast
  exact mapLoop_space vma framed hempty s _ (by omega)

end

end MapAll

section Data

def rowsOf (pages : BTreeMap Page) (m : Machine) (v : ℕ) : Option (ℕ → UInt8) :=
  pages[v]?.map fun page => m.ram page.ppn

def InFrames (pages : BTreeMap Page) (f : ℕ) : Prop :=
  ∃ (v : ℕ) (page : Page), pages[v]? = some page ∧ page.ppn = f

def writeRows (data : List UInt8) :
    ℕ → ℕ → ℕ → ℕ → (ℕ → Option (ℕ → UInt8)) → ℕ → Option (ℕ → UInt8)
  | 0, _, _, _, rows => rows
  | fuel + 1, start, offset, va, rows =>
    let stop := min data.length (start + pageSize - offset)
    let chunk := (data.take stop).drop start
    let rows := update rows (va / 4096) ((rows (va / 4096)).map fun row =>
      writeBytes row offset (chunk.take (min chunk.length (pageSize - offset))))
    if data.length ≤ start + (pageSize - offset) then rows
    else writeRows data fuel (start + (pageSize - offset)) 0 (wrappingAdd va pageSize) rows

structure Plain (pages : BTreeMap Page) : Prop where
  distinct : ∀ (v v' : ℕ) (page page' : Page), pages[v]? = some page → pages[v']? = some page' →
    page.ppn = page'.ppn → v = v'
  plain : ∀ (v : ℕ) (page : Page), pages[v]? = some page → page.diskFile = none

theorem write_rows (hp : Plain pages)
    (hv : pages[v]? = some page) (hram : InRam page.ppn) (offset : ℕ) (data : List UInt8) :
    Holds (Page.write page offset data) m
      (fun _ m' => PageWrite m m' (InFrames pages) ∧
        rowsOf pages m' = update (rowsOf pages m) v ((rowsOf pages m v).map fun row =>
          writeBytes row offset (data.take (min data.length (pageSize - offset)))))
      (fun _ _ => ¬ offset < pageSize) := by
  unfold Page.write Page.writeSectors
  rw [hp.plain v page hv]
  refine holds_assertThat (fun _ => ?_) of_decide_eq_false
  refine holds_bind_ok rfl (holds_bind_ok (byteArray_frame hram m) ?_)
  refine holds_ok rfl ⟨⟨rfl,fun g hg => ?_⟩,?_⟩
  · exact update_of_ne (fun he => hg ⟨v,page,hv,he.symm⟩) _ _
  · funext u
    by_cases hu : u = v
    · rw [hu,update_self,rowsOf,rowsOf,hv]
      exact congrArg some (update_self _ _ _)
    · rw [update_of_ne hu,rowsOf,rowsOf]
      cases hq : pages[u]? with
      | none => rfl
      | some q =>
        have hne : q.ppn ≠ page.ppn := fun he => hu (hp.distinct u v q page hq hv he)
        exact congrArg some (update_of_ne hne _ _)

theorem sliceOf_holds (data : List UInt8) (start stop : ℕ) :
    Holds (VirtMemoryAddr.sliceOf data start stop) m
      (fun r m' => r = (data.take stop).drop start ∧ m = m')
      (fun _ _ => ¬ (start ≤ stop ∧ stop ≤ data.length)) := by
  unfold VirtMemoryAddr.sliceOf
  split_ifs with h
  · exact holds_pure ⟨rfl,rfl⟩
  · exact holds_throw h

theorem writeDataLoop_rows (vma : VirtMemoryAddr) (hp : Plain vma.pma.pageManager)
    (data : List UInt8) : ∀ (fuel start offset va : ℕ) (m : Machine),
    Space m pt root K (fun p => h p + vmaHeld vma p) ext →
    Holds (vma.writeDataLoop data fuel start offset va) m
      (fun _ m' => PageWrite m m' (InFrames vma.pma.pageManager) ∧
        rowsOf vma.pma.pageManager m' =
          writeRows data fuel start offset va (rowsOf vma.pma.pageManager m))
      (fun _ _ => True) := by
  intro fuel
  induction fuel with
  | zero =>
    intro start offset va m s
    exact holds_pure ⟨PageWrite.refl m _,rfl⟩
  | succ fuel ih =>
    intro start offset va m s
    unfold VirtMemoryAddr.writeDataLoop PhysMemoryAddr.writeDataToPage writeRows
    refine (virtToVpn_holds va).orAny.bind ?_
    rintro _ _ ⟨rfl,rfl,-⟩
    refine (sliceOf_holds data start _).orAny.bind ?_
    rintro _ _ ⟨rfl,rfl⟩
    simp only [bind_assoc]
    refine holds_assertThat (fun _ => ?_) fun _ => trivial
    refine holds_unwrap fun page hv => ?_
    have hram : InRam page.ppn := (s.live _ (page_live s hv)).2.2
    refine (write_rows hp hv hram offset _).orAny.bind ?_
    rintro - m₁ ⟨hw,hrows⟩
    rw [← hrows]
    split
    · exact holds_pure ⟨hw,rfl⟩
    · have hlive : ∀ f, InFrames vma.pma.pageManager f → 0 < m.strong f := by
        rintro _ ⟨u,q,hq,rfl⟩
        exact page_live s hq
      refine (ih _ _ _ m₁ (hw.space hlive s).1).imp ?_
      rintro - m₂ ⟨hw₂,hrows₂⟩
      exact ⟨hw.trans hw₂,hrows₂⟩

def initialRows (startVaddr : ℕ) (pages : BTreeMap Page) :
    Option (List UInt8) → ℕ → ℕ → Option (ℕ → UInt8)
  | none, _ => fun v => pages[v]?.map fun _ _ => 0
  | some data, offset => writeRows data (data.length + 2) 0 offset startVaddr
      fun v => pages[v]?.map fun _ _ => 0

theorem writeInitial_rows (vma : VirtMemoryAddr) (hp : Plain vma.pma.pageManager)
    (data : Option (List UInt8)) (offset : ℕ)
    (s : Space m pt root K (fun p => h p + vmaHeld vma p) ext)
    (zero : ∀ (v : ℕ) (page : Page), vma.pma.pageManager[v]? = some page →
      m.ram page.ppn = fun _ => 0) :
    Holds (MemorySet.writeInitial vma data offset) m
      (fun _ m' => PageWrite m m' (InFrames vma.pma.pageManager) ∧
        rowsOf vma.pma.pageManager m' =
          initialRows vma.startVaddr vma.pma.pageManager data offset)
      (fun _ _ => True) := by
  have hzero : rowsOf vma.pma.pageManager m = fun v =>
      vma.pma.pageManager[v]?.map fun _ _ => 0 := by
    funext v
    unfold rowsOf
    cases hv : vma.pma.pageManager[v]? with
    | none => rfl
    | some page => exact congrArg some (zero v page hv)
  unfold MemorySet.writeInitial initialRows
  cases data with
  | none => exact holds_pure ⟨PageWrite.refl m _,hzero⟩
  | some bytes =>
    have loop := writeDataLoop_rows vma hp bytes (bytes.length + 2) 0 offset vma.startVaddr m s
    rw [hzero] at loop
    exact loop

end Data

section Push

variable {ms : MemorySet}

structure Pushed (m : Machine) (ms : MemorySet) (root : ℕ) (K : ℕ → Prop) (ext : ℕ → ℕ)
    (vma : VirtMemoryAddr) (data : Option (List UInt8)) (offset : ℕ) (pages : BTreeMap Page)
    (ms' : MemorySet) (m' : Machine) : Prop where
  keys : ∀ v : ℕ, pages[v]? ≠ none ↔ vma.startVaddr / 4096 ≤ v ∧ v < vma.endVaddr / 4096
  unmapped : ∀ v, vma.startVaddr / 4096 ≤ v → v < vma.endVaddr / 4096 → pteAt m root v = none
  set : ms' = { ms with
    areas := ms.areas.insert vma.startVaddr (withPages vma pages), pt := ms'.pt }
  space : Space m' ms'.pt root K (areasHeld ms'.areas) ext
  pte : pteAt m' root = overlay (pteAt m root) pages (pteFlagsFrom vma.mapPermission)
  frames : Plain pages
  rows : rowsOf pages m' = initialRows vma.startVaddr pages data offset
  kept : ∀ g, 0 < m.strong g → m'.ram g = m.ram g
  rest : m' = { m with ram := m'.ram, frameAllocator := m'.frameAllocator, strong := m'.strong,
                       dataState := m'.dataState }

theorem vmaHeld_empty (h : vma.pma.pageManager = ∅) (p : ℕ) :
    vmaHeld vma p = 0 := by
  rw [vmaHeld,h]
  exact total_empty _

theorem push_space (vma : VirtMemoryAddr) (framed : vma.mapType = .framed)
    (hempty : vma.pma.pageManager = ∅) (data : Option (List UInt8)) (offset : ℕ)
    (s : Space m ms.pt root K (areasHeld ms.areas) ext) :
    Holds (ms.push vma data offset) m
      (fun ms' m' => ∃ pages, Pushed m ms root K ext vma data offset pages ms' m')
      (fun _ _ => True) := by
  have s₀ : Space m ms.pt root K (fun p => areasHeld ms.areas p + vmaHeld vma p) ext :=
    s.held_congr fun p => by rw [vmaHeld_empty hempty p]; omega
  refine (mapSelfAll_space vma framed hempty s₀).bind ?_
  rintro ⟨_,pt'⟩ m₁ ⟨pages,rfl,done⟩
  have hplain : Plain pages := ⟨done.distinct,done.plain⟩
  refine (writeInitial_rows (withPages vma pages) hplain data offset done.space done.zero).bind ?_
  rintro - m₂ ⟨hw,hrows⟩
  have hlive : ∀ f, InFrames pages f → 0 < m₁.strong f := by
    rintro _ ⟨u,q,hq,rfl⟩
    have hq' : (withPages vma pages).pma.pageManager[u]? = some q := hq
    exact page_live done.space hq'
  obtain ⟨s₂,hpte₂⟩ := hw.space hlive done.space
  refine (insertSegment_space (h := fun _ => 0) ms.areas vma.startVaddr (withPages vma pages)
    (s₂.held_congr fun p => by omega)).weaken.bind ?_
  rintro _ m₃ ⟨rfl,s₃,hpte₃,hstep⟩
  have hkept : ∀ g, 0 < m.strong g → g ∉ m.frameAllocator.free ∧ ¬ TableOf ms.pt K g :=
    fun g hg => ⟨(s.live g hg).1,(s.live g hg).2.1⟩
  have hafter : ∀ g, ¬ TableOf pt' K g → m₃.ram g = m₂.ram g := hstep.data
  refine holds_pure ⟨pages,fun v => ?_,fun v h₁ h₂ => ?_,rfl,?_,?_,hplain,?_,?_,?_⟩
  · rw [done.keys]
    omega
  · exact (done.unmapped v h₁ (by omega)).2
  · refine s₃.held_congr fun p => ?_
    rw [Nat.zero_add]
  · rw [hpte₃,hpte₂,done.pte]
  · change rowsOf pages m₂ = initialRows vma.startVaddr pages data offset at hrows
    rw [← hrows]
    funext v
    unfold rowsOf
    cases hv : pages[v]? with
    | none => rfl
    | some q =>
      exact congrArg some (hafter q.ppn (done.space.live _ (hlive _ ⟨v,q,hv,rfl⟩)).2.1)
  · intro g hg
    obtain ⟨hfree,htable⟩ := hkept g hg
    rw [hafter g (done.growth.not_table hfree htable),hw.data g,done.growth.data g hfree htable]
    rintro ⟨v,q,hq,rfl⟩
    exact hfree (done.fresh v q hq)
  · rw [hstep.rest,hw.rest,done.growth.rest]

end Push

end DuckOs.SegmentPush
