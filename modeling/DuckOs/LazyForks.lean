import DuckOs.CopyFaults
import DuckOs.SegmentLookups

namespace DuckOs.LazyForks
open ExecutionRules AddressModel PermissionFlags KernelMachine PageTableModel PageModel Function
open PageTableEntries PageTableTree PageTableWalks PageTableOperations FrameOwnership
open VirtMemoryModel SegmentViews MemorySetModel SegmentLookups TableFamilies CopyFaults
open OrderedMaps
open MemorySet (LazyFork)

variable {w v key kroot : ℕ} {vma : VirtMemoryAddr} {m₀ m : Machine} {parent : MemorySet}
  {tables rest : List PageTable} {pt : PageTable} {h H ext : ℕ → ℕ}

structure SharedAs (w w' : ℕ) : Prop where
  ppn : PageTableEntry.ppn w' = PageTableEntry.ppn w
  shared : isShared w' = true
  readOnly : isWritable w' = false

theorem setFlags_eq (w : ℕ) (flags : PTEFlags) :
    PageTableEntry.setFlags w flags = PageTableEntry.new (PageTableEntry.ppn w) flags := rfl

theorem shared_setFlags (w : ℕ) :
    SharedAs w (PageTableEntry.setFlags w (shareFlags (PageTableEntry.flags w))) := by
  have hppn : PageTableEntry.ppn w < 2 ^ 44 := by
    rw [ppn_eq]
    omega
  rw [setFlags_eq]
  refine ⟨ppn_new hppn _,?_,?_⟩
  · unfold isShared
    rw [flags_new]
    generalize PageTableEntry.flags w = flags
    revert flags
    decide
  · unfold isWritable
    rw [flags_new]
    generalize PageTableEntry.flags w = flags
    revert flags
    decide

theorem valid_setFlags (h : PageTableEntry.isValid w = true) :
    PageTableEntry.isValid (PageTableEntry.setFlags w (shareFlags (PageTableEntry.flags w))) =
      true := by
  unfold PageTableEntry.isValid at h ⊢
  rw [setFlags_eq,flags_new]
  generalize PageTableEntry.flags w = flags at h ⊢
  revert flags
  decide

def segmentPages (vma : VirtMemoryAddr) : List ℕ :=
  List.range' (vma.startVaddr / 4096) (vma.endVaddr / 4096 - vma.startVaddr / 4096)

/-- The page numbers of all segments, in the order in which a fork takes them. -/
def pagesOf (areas : VmaRange) : List ℕ := areas.toList.flatMap fun e => segmentPages e.2

structure Resident (m : Machine) (vm : MemorySet) : Prop where
  bounds : ∀ (key : ℕ) (vma : VirtMemoryAddr), vm.areas[key]? = some vma →
    vma.startVaddr ≤ userUpperLimit ∧ vma.endVaddr ≤ userUpperLimit
  keyed : ∀ (key : ℕ) (vma : VirtMemoryAddr), vm.areas[key]? = some vma → vma.startVaddr = key
  pages : ∀ (key : ℕ) (vma : VirtMemoryAddr) (v : ℕ), vm.areas[key]? = some vma →
    v ∈ segmentPages vma → ∃ page w, vma.pma.pageManager[v]? = some page ∧
      pteAt m (rootFrame vm.pt) v = some w ∧ page.ppn = PageTableEntry.ppn w

theorem userPage_of_mem (hv : v ∈ segmentPages vma) (h : vma.endVaddr ≤ userUpperLimit) :
    UserPage (v + 1) := by
  have hlt : v < vma.endVaddr / 4096 := by
    have := List.mem_range'_1.mp hv
    omega
  have hle := Nat.mul_le_of_le_div 4096 (v + 1) vma.endVaddr hlt
  exact hle.trans h

section Sharing

variable {m₁ : Machine} {done : List ℕ} {s : LazyFork} {page : Page}

/-- The fork is through with the pages of `done`; `m₁` is the machine it began with. `H` are the
handles that it does not touch, those of the parent's segments among them. -/
structure Sharing (m₀ : Machine) (kroot : ℕ) (parent : MemorySet) (rest : List PageTable)
    (H ext : ℕ → ℕ) (m₁ : Machine) (done : List ℕ) (s : LazyFork) (m : Machine) : Prop where
  family : Family m₀ kroot (s.child.pt :: parent.pt :: rest)
    (fun p => H p + (pagesHeld s.cow p + pagesHeld s.child.cowManager.pageManager p)) ext m
  bare : ∀ (key : ℕ) (vma : VirtMemoryAddr), s.child.areas[key]? = some vma →
    vma.pma = PhysMemoryAddr.new
  same : s.child.cowManager.pageManager = s.cow
  shared : ∀ v ∈ done, ∃ w wp wc, ∃ page : Page, pteAt m₁ (rootFrame parent.pt) v = some w ∧
    pteAt m (rootFrame parent.pt) v = some wp ∧ SharedAs w wp ∧
    pteAt m (rootFrame s.child.pt) v = some wc ∧ SharedAs w wc ∧
    s.cow[v]? = some page ∧ page.ppn = PageTableEntry.ppn w
  todo : ∀ v, v ∉ done → pteAt m (rootFrame parent.pt) v = pteAt m₁ (rootFrame parent.pt) v ∧
    (UserPage v → pteAt m (rootFrame s.child.pt) v = none) ∧
    s.cow[v]? = parent.cowManager.pageManager[v]?
  others : ∀ t ∈ rest, pteAt m (rootFrame t) = pteAt m₁ (rootFrame t)
  bytes : ∀ g, 0 < H g → m.ram g = m₁.ram g

theorem insertShared_holds {cow : BTreeMap Page}
    (f : Family m₀ kroot tables (fun p => h p + pagesHeld cow p) ext m) (hpt : pt ∈ tables)
    (hp : 0 < h page.ppn) :
    Holds (MemorySet.insertShared cow v page) m
      (fun r m' => r = cow.insert v page ∧
        Family m₀ kroot tables (fun p => h p + pagesHeld (cow.insert v page) p) ext m' ∧
        Untouched tables m m') (Never Panic Machine) := by
  refine (f.clone hpt (Nat.add_pos_left hp _)).bind ?_
  rintro r m' ⟨hr,f',same⟩
  rw [hr]
  have f₁ : Family m₀ kroot tables (fun p => h p + (pagesHeld cow p + single page p)) ext m' :=
    f'.held_congr fun p => by omega
  refine (f₁.insert hpt).bind ?_
  rintro - m₂ ⟨f₂,same₂⟩
  exact holds_pure ⟨rfl,f₂,same.trans same₂⟩

theorem Sharing.entry (sh : Sharing m₀ kroot parent rest H ext m₁ done s m)
    (hw : pteAt m₁ (rootFrame parent.pt) v = some w) :
    ∃ wp, pteAt m (rootFrame parent.pt) v = some wp ∧
      PageTableEntry.ppn wp = PageTableEntry.ppn w := by
  by_cases hd : v ∈ done
  · obtain ⟨w',wp,-,-,hw',hwp,hs,-⟩ := sh.shared v hd
    cases hw.symm.trans hw'
    exact ⟨wp,hwp,hs.ppn⟩
  · exact ⟨w,(sh.todo v hd).1.trans hw,rfl⟩

/-- The page `v` has been shared as well. -/
theorem Sharing.added {m' : Machine} {wp wc : ℕ}
    (sh : Sharing m₀ kroot parent rest H ext m₁ done s m)
    (hnew : v ∉ done) (hw : pteAt m₁ (rootFrame parent.pt) v = some w)
    (hppn : page.ppn = PageTableEntry.ppn w) (hs : SharedAs w wp) (hc : SharedAs w wc)
    (f : Family m₀ kroot (pt :: parent.pt :: rest) (fun p => H p +
      (pagesHeld (s.cow.insert v page) p +
        pagesHeld (s.child.cowManager.pageManager.insert v page) p)) ext m')
    (hparent : pteAt m' (rootFrame parent.pt) =
      update (pteAt m (rootFrame parent.pt)) v (some wp))
    (hchild : pteAt m' (rootFrame pt) = update (pteAt m (rootFrame s.child.pt)) v (some wc))
    (others : ∀ t ∈ rest, pteAt m' (rootFrame t) = pteAt m (rootFrame t))
    (bytes : ∀ g, 0 < H g → m'.ram g = m.ram g) :
    Sharing m₀ kroot parent rest H ext m₁ (done ++ [v]) ⟨s.cow.insert v page,
      { s.child with pt, cowManager := ⟨s.child.cowManager.pageManager.insert v page⟩ }⟩ m' := by
  refine ⟨f,sh.bare,?_,fun u hu => ?_,fun u hu => ?_,fun t ht => (others t ht).trans
    (sh.others t ht),
    fun g hg => (bytes g hg).trans (sh.bytes g hg)⟩
  · dsimp only
    rw [sh.same]
  · rcases List.mem_append.mp hu with hd | hd
    · have hne : u ≠ v := by
        rintro rfl
        exact hnew hd
      obtain ⟨w',wp',wc',own,hw',hwp',hs',hwc',hsc',hown,hframe⟩ := sh.shared u hd
      refine ⟨w',wp',wc',own,hw',?_,hs',?_,hsc',?_,hframe⟩
      · rw [hparent,update_of_ne hne,hwp']
      · rw [hchild,update_of_ne hne,hwc']
      · rw [getElem?_insert,if_neg hne]
        exact hown
    · rw [List.mem_singleton.mp hd]
      refine ⟨w,wp,wc,page,hw,?_,hs,?_,hc,?_,hppn⟩
      · rw [hparent,update_self]
      · rw [hchild,update_self]
      · rw [getElem?_insert,if_pos rfl]
  · have hne : u ≠ v := by
      rintro rfl
      exact hu (List.mem_append_right _ (List.mem_singleton_self _))
    obtain ⟨hold,hempty,hcow⟩ := sh.todo u fun hd => hu (List.mem_append_left _ hd)
    refine ⟨?_,fun huser => ?_,?_⟩
    · rw [hparent,update_of_ne hne,hold]
    · rw [hchild,update_of_ne hne]
      exact hempty huser
    · rw [getElem?_insert,if_neg hne]
      exact hcow

theorem sharePage_holds {pages : BTreeMap Page}
    (sh : Sharing m₀ kroot parent rest H ext m₁ done s m) (hv : UserPage v)
    (hpage : pages[v]? = some page) (hp : 0 < H page.ppn)
    (hw : pteAt m₁ (rootFrame parent.pt) v = some w) (hppn : page.ppn = PageTableEntry.ppn w) :
    Holds (MemorySet.sharePage parent.pt pages s v) m
      (fun s' m' => Sharing m₀ kroot parent rest H ext m₁ (done ++ [v]) s' m')
      (fun e _ => e = .outOfFrames ∨ v ∈ done) := by
  obtain ⟨wp,hwp,hsame⟩ := sh.entry hw
  have hmem : parent.pt ∈ s.child.pt :: parent.pt :: rest :=
    List.mem_cons_of_mem _ List.mem_cons_self
  obtain ⟨slot,hslot,hword⟩ := entryAt_eq_some ((pteAt_accepted hv.accepted).symm.trans hwp)
  have hfind := sh.family.translate hmem hv
  rw [hslot] at hfind
  have hlt : PageTableEntry.setFlags wp (shareFlags (PageTableEntry.flags wp)) < 2 ^ 64 :=
    new_lt _ _
  have marked := (sh.family.perm (.swap _ _ _)).rewrite hv hslot hlt
  rw [valid_setFlags (pteAt_valid hwp).1,if_pos rfl] at marked
  unfold MemorySet.sharePage
  rw [hpage]
  refine holds_bind_ok hv.toVirt (holds_bind_ok hfind (holds_bind_ok rfl ?_))
  refine holds_bind_ok (readPte_eq slot m) ?_
  rw [hword]
  refine holds_bind_ok (writePte_eq slot _ m) ?_
  have hchild := marked.others s.child.pt List.mem_cons_self
  refine (((marked.family.perm (.swap _ _ _)).mapOne hv page.ppn
    (shareFlags (PageTableEntry.flags wp))).onError ?_).bind ?_
  · rintro e - (h | h)
    · exact .inl h
    · refine .inr (by_contra fun hd => h ?_)
      rw [hchild]
      exact (sh.todo v hd).2.1 hv
  rintro pt m₃ ⟨hnone,mapped⟩
  have hnew : v ∉ done := by
    intro hd
    obtain ⟨-,-,wc,-,-,-,-,hwc,-⟩ := sh.shared v hd
    rw [hchild,hwc] at hnone
    cases hnone
  have hram := (mapped.family.data_of_held (Nat.add_pos_left hp _)).inRam
  have hs := shared_setFlags wp
  have hc := shared_word page.ppn (PageTableEntry.flags wp)
  have f₃ : Family m₀ kroot (pt :: parent.pt :: rest) (fun p => (H p + pagesHeld s.cow p) +
      pagesHeld s.child.cowManager.pageManager p) ext m₃ :=
    mapped.family.held_congr fun p => by omega
  refine (insertShared_holds f₃ List.mem_cons_self (Nat.add_pos_left hp _)).weaken.bind ?_
  rintro _ m₄ ⟨rfl,f₄,same₄⟩
  have f₄' : Family m₀ kroot (pt :: parent.pt :: rest)
      (fun p => (H p + pagesHeld (s.child.cowManager.pageManager.insert v page) p) +
        pagesHeld s.cow p) ext m₄ :=
    f₄.held_congr fun p => by omega
  refine (insertShared_holds f₄' List.mem_cons_self (Nat.add_pos_left hp _)).weaken.bind ?_
  rintro _ m₅ ⟨rfl,f₅,same₅⟩
  have same := same₄.trans same₅
  refine holds_pure ?_
  refine sh.added hnew hw hppn ⟨hs.ppn.trans hsame,hs.shared,hs.readOnly⟩
    ⟨(ppn_mappedWord hram _).trans hppn,hc.1,hc.2⟩ (f₅.held_congr fun p => by omega)
    ?_ ?_ (fun t ht => ?_) fun g hg => ?_
  · rw [same.pte _ (List.mem_cons_of_mem _ List.mem_cons_self),
      mapped.others _ List.mem_cons_self,marked.pte]
  · rw [same.pte _ List.mem_cons_self,mapped.root,mapped.pte,hchild]
  · rw [same.pte t (List.mem_cons_of_mem _ (List.mem_cons_of_mem _ ht)),
      mapped.others t (List.mem_cons_of_mem _ ht),marked.others t (List.mem_cons_of_mem _ ht)]
  · have hdata := sh.family.perm (.swap _ _ _) |>.data_of_held (Nat.add_pos_left hg _)
    have hmarked := marked.family.perm (.swap _ _ _) |>.data_of_held (Nat.add_pos_left hg _)
    rw [same.ram,(mapped.data g hmarked).2,(marked.data g hdata).2]

theorem sharePages_holds (sh : Sharing m₀ kroot parent rest H ext m₁ done s m)
    (res : Resident m₁ parent) (hk : parent.areas[key]? = some vma)
    (hH : ∀ p, areasHeld parent.areas p ≤ H p) :
    Holds ((segmentPages vma).foldlM (MemorySet.sharePage parent.pt vma.pma.pageManager) s) m
      (fun s' m' => Sharing m₀ kroot parent rest H ext m₁ (done ++ segmentPages vma) s' m')
      (fun e _ => e = .outOfFrames ∨ ¬ (done ++ segmentPages vma).Nodup) := by
  refine holds_foldlM_done
    (fun before s m => Sharing m₀ kroot parent rest H ext m₁ (done ++ before) s m) ?_
    (by rwa [List.append_nil])
  intro before v left s m hsplit sh
  have hv : v ∈ segmentPages vma := by
    rw [hsplit]
    exact List.mem_append_right _ List.mem_cons_self
  obtain ⟨page,w,hpage,hw,hppn⟩ := res.pages key vma v hk hv
  refine (sharePage_holds sh (userPage_of_mem hv (res.bounds key vma hk).2).of_succ hpage
    ((areasHeld_pos hk hpage).trans_le (hH _)) hw hppn).mono ?_ ?_
  · intro s' m' sh'
    rwa [← List.append_assoc]
  · rintro e - (h | h)
    · exact .inl h
    · refine .inr fun hnodup => ?_
      rw [hsplit,← List.append_assoc,List.nodup_append] at hnodup
      exact hnodup.2.2 v h v List.mem_cons_self rfl

theorem dropPages_empty (m : Machine) : dropPages ∅ m = .ok () m := by
  unfold dropPages
  rfl

theorem pushNoMap_bare {child : MemorySet} (bare : ∀ (key : ℕ) (vma : VirtMemoryAddr),
    child.areas[key]? = some vma → vma.pma = PhysMemoryAddr.new) (vma : VirtMemoryAddr) :
    MemorySet.pushNoMap child vma m =
      .ok { child with areas := child.areas.insert vma.startVaddr vma } m := by
  have hdrop : VmaRange.dropReplaced child.areas[vma.startVaddr]? m = .ok () m := by
    cases hk : child.areas[vma.startVaddr]? with
    | none => rfl
    | some old =>
      change dropPages old.pma.pageManager m = _
      rw [bare _ _ hk]
      exact dropPages_empty m
  have hinsert : VmaRange.insertRaw child.areas vma m =
      .ok (child.areas.insert vma.startVaddr vma) m := by
    unfold VmaRange.insertRaw VmaRange.insertSegment
    rw [bind_ok hdrop]
    rfl
  unfold MemorySet.pushNoMap
  rw [bind_ok hinsert]
  rfl

theorem shareSegment_holds (sh : Sharing m₀ kroot parent rest H ext m₁ done s m)
    (res : Resident m₁ parent) (hk : parent.areas[key]? = some vma)
    (hH : ∀ p, areasHeld parent.areas p ≤ H p) :
    Holds (MemorySet.shareSegment parent.pt s (key, vma)) m
      (fun s' m' => Sharing m₀ kroot parent rest H ext m₁ (done ++ segmentPages vma) s' m')
      (fun e _ => e = .outOfFrames ∨ ¬ (done ++ segmentPages vma).Nodup) := by
  obtain ⟨hstart,hend⟩ := res.bounds key vma hk
  have hrange : (vma.vmaRange : Kernel (ℕ × ℕ)) m =
      .ok (vma.startVaddr / 4096, vma.endVaddr / 4096) m := by
    rw [vmaRange_eq,checkUserVa_of_le hstart,checkUserVa_of_le hend]
    rfl
  refine holds_bind_ok hrange ((sharePages_holds sh res hk hH).bind ?_)
  intro s' m' sh'
  refine holds_bind_ok (pushNoMap_bare sh'.bare _) (holds_pure ?_)
  refine ⟨sh'.family,forall_insert sh'.bare rfl,sh'.same,sh'.shared,sh'.todo,sh'.others,
    sh'.bytes⟩

theorem shareSegments_holds (sh : Sharing m₀ kroot parent rest H ext m₁ [] s m)
    (res : Resident m₁ parent) (hH : ∀ p, areasHeld parent.areas p ≤ H p) :
    Holds (parent.areas.toList.foldlM (MemorySet.shareSegment parent.pt) s) m
      (fun s' m' => Sharing m₀ kroot parent rest H ext m₁ (pagesOf parent.areas) s' m')
      (fun e _ => e = .outOfFrames ∨ ¬ (pagesOf parent.areas).Nodup) := by
  refine holds_foldlM_done (fun (before : List (ℕ × VirtMemoryAddr)) s m =>
    Sharing m₀ kroot parent rest H ext m₁ (before.flatMap fun e => segmentPages e.2) s m) ?_ sh
  rintro before ⟨key,vma⟩ left s m hsplit sh
  have hk : parent.areas[key]? = some vma := by
    refine mem_toList.mp ?_
    rw [hsplit]
    exact List.mem_append_right _ List.mem_cons_self
  refine (shareSegment_holds sh res hk hH).mono ?_ ?_
  · intro s' m' sh'
    rw [List.flatMap_append,List.flatMap_singleton]
    exact sh'
  · rintro e - (h | h)
    · exact .inl h
    · refine .inr fun hnodup => h ?_
      unfold pagesOf at hnodup
      rw [hsplit,List.flatMap_append,List.flatMap_cons,← List.append_assoc] at hnodup
      exact hnodup.of_append_left

end Sharing

section Forks

theorem cloneAll_holds (hpt : pt ∈ tables) : ∀ (pages : List (ℕ × Page)) {h : ℕ → ℕ} {m : Machine},
    Family m₀ kroot tables h ext m → (∀ e ∈ pages, 0 < h e.2.ppn) →
    Holds (pages.foldlM (fun _ entry => do
      let _ ← arcClone entry.2
      pure ()) ()) m
      (fun _ m' => Family m₀ kroot tables
        (fun p => h p + (pages.map fun e => single e.2 p).sum) ext m' ∧ Untouched tables m m')
      (Never Panic Machine)
  | [], h, m, f, _ => holds_pure ⟨f,.refl tables m⟩
  | e :: pages, h, m, f, hheld => by
    rw [List.foldlM_cons]
    have first : Holds (do
        let _ ← arcClone e.2
        pure ()) m
        (fun _ m' => Family m₀ kroot tables (fun p => h p + single e.2 p) ext m' ∧
          Untouched tables m m') (Never Panic Machine) :=
      (f.clone hpt (hheld e List.mem_cons_self)).bind fun _ _ r => holds_pure r.2
    refine first.bind ?_
    rintro - m' ⟨f',same⟩
    refine (cloneAll_holds hpt pages f' fun e' he' =>
      Nat.add_pos_left (hheld e' (List.mem_cons_of_mem _ he')) _).imp ?_
    rintro - m₂ ⟨f₂,same₂⟩
    refine ⟨f₂.held_congr fun p => ?_,same.trans same₂⟩
    rw [List.map_cons,List.sum_cons]
    omega

theorem translateAll_eq (f : Family m₀ kroot tables h ext m) (hpt : pt ∈ tables) :
    ∀ pages : List (ℕ × Page), (∀ e ∈ pages, UserPage e.1) →
    (pages.foldlM (fun _ entry => do
      let va ← vpnToVirt entry.1
      let _ ← PageTable.translateVaToPte pt va
      pure ()) () : Kernel Unit) m = .ok () m
  | [], _ => rfl
  | e :: pages, huser => by
    have he := huser e List.mem_cons_self
    rw [List.foldlM_cons]
    refine (bind_ok ?_).trans
      (translateAll_eq f hpt pages fun e' he' => huser e' (List.mem_cons_of_mem _ he'))
    rw [bind_ok he.toVirt,bind_ok (f.translate hpt he)]
    rfl

theorem fromOtherCow_holds {another : CowManager} (hpt : pt ∈ tables)
    (f : Family m₀ kroot tables (fun p => h p + pagesHeld another.pageManager p) ext m)
    (keys : ∀ (v : ℕ) (page : Page), another.pageManager[v]? = some page → UserPage v) :
    Holds (CowManager.new.fromOtherCow another pt) m
      (fun r m' => r = another ∧ Family m₀ kroot tables
        (fun p => h p + (pagesHeld another.pageManager p + pagesHeld another.pageManager p)) ext
        m' ∧ Untouched tables m m') (Never Panic Machine) := by
  refine (cloneAll_holds hpt another.pageManager.toList f ?_).bind ?_
  · intro e he
    exact Nat.add_pos_right _ (pagesHeld_pos (mem_toList.mp he))
  rintro - m' ⟨f',same⟩
  refine holds_bind_ok (translateAll_eq f' hpt _ fun e he => keys e.1 e.2 (mem_toList.mp he)) ?_
  refine holds_bind_ok (dropPages_empty m') (holds_pure ⟨rfl,f'.held_congr fun p => ?_,same⟩)
  unfold pagesHeld total
  dsimp only
  omega

theorem newUser_holds (f : Family m₀ kroot tables h ext m) :
    Holds MemorySet.newUser m
      (fun ms m' => ∃ pt, ms = ⟨∅, pt, 0, CowManager.new⟩ ∧ NewTable m₀ kroot tables h ext m pt m')
      (fun e _ => e = .outOfFrames) :=
  f.newUser.bind fun pt _ made => holds_pure ⟨pt,rfl,made⟩

theorem sharePage_areas (pages : BTreeMap Page) (s : LazyFork) (v : ℕ) :
    Yields (MemorySet.sharePage pt pages s v) fun s' => s'.child.areas = s.child.areas := by
  unfold MemorySet.sharePage
  split
  · exact yields_throw _ _
  · exact yields_after fun _ => yields_after fun _ => yields_after fun _ => yields_after fun _ =>
      yields_after fun _ => yields_after fun _ => yields_after fun _ => yields_after fun _ =>
        yields_pure rfl

/-- The child has the segments of its parent, without pages. -/
theorem fromUserLazily_areas (res : Resident m parent) :
    Yields (MemorySet.fromUserLazily parent) fun r => ∀ (key : ℕ) (vma : VirtMemoryAddr),
      parent.areas[key]? = some vma → r.2.areas[key]? = some (VirtMemoryAddr.fromAnother vma) := by
  refine yields_after fun ms => yields_after fun cow => ?_
  refine Yields.bind (R := fun s : LazyFork => ∀ e ∈ parent.areas.toList,
    s.child.areas[e.1]? = some (VirtMemoryAddr.fromAnother e.2)) (fun m' => ?_)
    fun s hs => yields_pure fun key vma hk => hs (key, vma) (mem_toList.mpr hk)
  refine holds_foldlM_done (fun (before : List (ℕ × VirtMemoryAddr)) (s : LazyFork) _ =>
    ∀ e ∈ before,
    s.child.areas[e.1]? = some (VirtMemoryAddr.fromAnother e.2)) ?_ (fun _ h => by cases h)
  rintro before ⟨key,vma⟩ left s m'' hsplit hs
  have hmem : ∀ e ∈ before ++ [(key, vma)], parent.areas[e.1]? = some e.2 := by
    intro e he
    refine mem_toList.mp ?_
    rw [hsplit,List.append_cons]
    exact List.mem_append_left _ he
  have hkey : parent.areas[key]? = some vma := hmem (key, vma) (by simp)
  refine yields_after (fun range => Yields.bind (yields_foldlM
    (fun s' : LazyFork => s'.child.areas = s.child.areas)
    (fun v s' h => (sharePage_areas _ s' v).imp fun _ h' => h'.trans h) _ s rfl)
      fun s' hs' => ?_) m''
  refine Yields.bind (R := fun child => child.areas =
    s.child.areas.insert key (VirtMemoryAddr.fromAnother vma)) ?_ fun child hchild => yields_pure ?_
  · refine Yields.bind (R := fun areas => areas = s.child.areas.insert key _)
      (yields_after fun _ => yields_pure ?_) fun areas h => yields_pure h
    rw [← hs',← res.keyed key vma hkey]
    rfl
  · intro e he
    dsimp only
    rw [hchild,getElem?_insert]
    split_ifs with heq
    · have hsame := hmem e he
      rw [heq,hkey,Option.some.injEq] at hsame
      rw [hsame]
    · rcases List.mem_append.mp he with h | h
      · exact hs e h
      · rw [List.mem_singleton.mp h] at heq
        exact absurd rfl heq

theorem fromUserLazily_holds
    (f : Family m₀ kroot (parent.pt :: rest)
      (fun p => H p + pagesHeld parent.cowManager.pageManager p) ext m)
    (res : Resident m parent) (hH : ∀ p, areasHeld parent.areas p ≤ H p)
    (keys : ∀ (v : ℕ) (page : Page), parent.cowManager.pageManager[v]? = some page →
      UserPage v) :
    Holds (MemorySet.fromUserLazily parent) m
      (fun r m' => ∃ s, r = ({ parent with cowManager := ⟨s.cow⟩ }, s.child) ∧
        Sharing m₀ kroot parent rest H ext m (pagesOf parent.areas) s m')
      (fun e _ => e = .outOfFrames ∨ ¬ (pagesOf parent.areas).Nodup) := by
  refine ((newUser_holds f).onError fun _ _ he => .inl he).bind ?_
  rintro _ m₁ ⟨pt,rfl,f₁,hempty,hpte,hbytes⟩
  refine (fromOtherCow_holds List.mem_cons_self f₁ keys).weaken.bind ?_
  rintro _ m₂ ⟨rfl,f₂,same⟩
  have start : Sharing m₀ kroot parent rest H ext m []
      ⟨parent.cowManager.pageManager,⟨∅,pt,0,parent.cowManager⟩⟩ m₂ := by
    refine ⟨f₂,?_,rfl,?_,?_,?_,?_⟩
    · intro key vma hk
      cases hk
    · intro v hv
      cases hv
    · intro v _
      refine ⟨?_,fun hv => ?_,rfl⟩
      · rw [same.pte _ (List.mem_cons_of_mem _ List.mem_cons_self),hpte _ List.mem_cons_self]
      · rw [same.pte _ List.mem_cons_self]
        exact hempty v hv
    · intro t ht
      rw [same.pte _ (List.mem_cons_of_mem _ (List.mem_cons_of_mem _ ht)),
        hpte _ (List.mem_cons_of_mem _ ht)]
    · intro g hg
      rw [same.ram]
      exact hbytes g (f.data_of_held (Nat.add_pos_left hg _))
  exact (shareSegments_holds start res hH).bind fun s m' sh => holds_pure ⟨s,rfl,sh⟩

end Forks

end DuckOs.LazyForks
