import DuckOs.SegmentProtect

namespace DuckOs.SegmentShapes
open ExecutionRules AddressModel PermissionFlags KernelMachine PageTableModel PageModel
open VirtMemoryModel MemorySetModel SegmentViews SegmentUnmap AreaUnmap SegmentProtect
open OrderedMaps

variable {areas areas' : VmaRange} {k : ℕ} {vma vma' : VirtMemoryAddr} {w : View}

def shape (vma : VirtMemoryAddr) : VirtMemoryAddr :=
  { vma with pma := ⟨∅, vma.pma.backenFile⟩ }

def SameShape (areas areas' : VmaRange) : Prop :=
  ∀ k : ℕ, areas[k]?.map shape = areas'[k]?.map shape

theorem SameShape.refl (areas : VmaRange) : SameShape areas areas := fun _ => rfl

theorem SameShape.insert (h : SameShape areas areas') (k : ℕ) (hv : shape vma = shape vma') :
    SameShape (areas.insert k vma) (areas'.insert k vma') := by
  intro l
  rw [getElem?_insert,getElem?_insert]
  split
  · exact congrArg some hv
  · exact h l

theorem SameShape.found (h : SameShape areas areas') (hk : areas[k]? = some vma) :
    ∃ vma', areas'[k]? = some vma' ∧ shape vma = shape vma' := by
  have hsame := h k
  rw [hk,Option.map_some] at hsame
  obtain ⟨vma',hk',hs⟩ := Option.map_eq_some_iff.mp hsame.symm
  exact ⟨vma',hk',hs.symm⟩

theorem SameShape.absent (h : SameShape areas areas')
    (hk : areas[k]? = none) : areas'[k]? = none := by
  have hsame := h k
  rw [hk,Option.map_none] at hsame
  exact Option.map_eq_none_iff.mp hsame.symm

theorem SameShape.replaced (hk : areas[k]? = some vma) (hv : shape vma' = shape vma) :
    SameShape (areas.insert k vma') areas := by
  intro l
  rw [getElem?_insert]
  split_ifs with hl
  · rw [hl,hk]
    exact congrArg some hv
  · rfl

section

variable (h : shape vma = shape vma')
include h

theorem shape_start : vma.startVaddr = vma'.startVaddr :=
  (congrArg VirtMemoryAddr.startVaddr h :)

theorem shape_end : vma.endVaddr = vma'.endVaddr :=
  (congrArg VirtMemoryAddr.endVaddr h :)

theorem shape_backing : vma.pma.backenFile = vma'.pma.backenFile :=
  (congrArg (fun v : VirtMemoryAddr => v.pma.backenFile) h :)

theorem shape_overlaps (a b : ℕ) : Overlaps vma a b ↔ Overlaps vma' a b := by
  unfold Overlaps
  rw [shape_start h,shape_end h]

theorem shape_leftPart (pos : ℕ) : shape (leftPart vma pos) = shape (leftPart vma' pos) :=
  congrArg (fun v : VirtMemoryAddr => { v with endVaddr := pos }) h

theorem shape_rightPart (pos : ℕ) : shape (rightPart vma pos) = shape (rightPart vma' pos) :=
  congrArg (fun v : VirtMemoryAddr => { v with startVaddr := pos, pma := ⟨∅,none⟩ }) h

theorem shape_recolour (flags : MapPermission) :
    shape (recolour vma flags) = shape (recolour vma' flags) :=
  congrArg (fun v : VirtMemoryAddr => { v with mapPermission := flags }) h

end

theorem shape_emptied (vma : VirtMemoryAddr) : shape (emptied vma) = shape vma := by
  unfold emptied
  split <;> rfl

theorem shape_cutVma (h : shape vma = shape vma') (a b : ℕ) :
    shape (cutVma vma a b).1 = shape (cutVma vma' a b).1 ∧
      (cutVma vma a b).2.map shape = (cutVma vma' a b).2.map shape := by
  unfold cutVma
  simp only [shape_overlaps h,shape_start h,shape_end h]
  split
  · exact ⟨h,rfl⟩
  · split
    · split
      · exact ⟨shape_rightPart h b,rfl⟩
      · refine ⟨?_,rfl⟩
        rw [shape_emptied,shape_emptied,h]
    · split
      · exact ⟨shape_leftPart (shape_leftPart h b) a,congrArg some (shape_rightPart h b)⟩
      · exact ⟨shape_leftPart h a,rfl⟩

theorem shape_protectVma (h : shape vma = shape vma') (a b : ℕ) (flags : MapPermission) :
    shape (protectVma vma a b flags).1 = shape (protectVma vma' a b flags).1 ∧
      (protectVma vma a b flags).2.map shape = (protectVma vma' a b flags).2.map shape := by
  unfold protectVma
  simp only [shape_overlaps h,shape_start h,shape_end h]
  split
  · exact ⟨h,rfl⟩
  · split
    · split
      · exact ⟨shape_recolour (shape_leftPart h b) flags,congrArg (fun v => [v])
          (shape_rightPart h b)⟩
      · exact ⟨shape_recolour h flags,rfl⟩
    · split
      · exact ⟨shape_leftPart (shape_leftPart h b) a,congrArg₂ (fun v u => [v,u])
          (shape_rightPart h b) (shape_recolour (shape_rightPart (shape_leftPart h b) a) flags)⟩
      · exact ⟨shape_leftPart h a,
          congrArg (fun v => [v]) (shape_recolour (shape_rightPart h a) flags)⟩

theorem popPmaPage_backing (pma : PhysMemoryAddr) (vpn : ℕ) :
    Yields (pma.popPmaPage vpn) fun r => r.backenFile = pma.backenFile := by
  unfold PhysMemoryAddr.popPmaPage
  cases pma.pageManager[vpn]? with
  | none => exact yields_pure rfl
  | some page => exact yields_after fun _ => yields_pure rfl

theorem split_backing (pma : PhysMemoryAddr) (leftEnd rightStart limit : ℕ) :
    Yields (pma.split leftEnd rightStart limit) fun r =>
      r.1.backenFile = pma.backenFile ∧ r.2.backenFile = none := by
  refine yields_after fun first => yields_after fun last => yields_after fun maps => ?_
  refine yields_after fun gapFirst => yields_after fun gapLast => ?_
  refine Yields.bind (yields_foldlM (fun left => left.backenFile = pma.backenFile) ?_ _ _ rfl) ?_
  · intro vpn left hleft
    exact (popPmaPage_backing left vpn).imp fun _ h => h.trans hleft
  · intro left hleft
    exact yields_pure ⟨hleft,rfl⟩

section

variable (vma)

theorem split_shape (pos : ℕ) : Yields (vma.split pos) fun r =>
      shape r.1 = shape (leftPart vma pos) ∧ shape r.2 = shape (rightPart vma pos) := by
  refine (split_backing vma.pma pos pos vma.endVaddr).bind ?_
  rintro pmas ⟨hleft,hright⟩
  refine yields_pure ⟨?_,?_⟩
  · change ({ vma with pma := ⟨∅,pmas.1.backenFile⟩, endVaddr := pos } : VirtMemoryAddr) = _
    rw [hleft]
    rfl
  · change ({ vma with pma := ⟨∅,pmas.2.backenFile⟩, startVaddr := pos } : VirtMemoryAddr) = _
    rw [hright]
    rfl

theorem unmapPage_shape (pt : PageTable) (vpn : ℕ) :
    Yields (vma.unmap pt vpn) fun r => shape r = shape vma := by
  have hpop : Yields (vma.popFramed vpn) fun r => r.backenFile = vma.pma.backenFile := by
    unfold VirtMemoryAddr.popFramed
    split
    · exact popPmaPage_backing vma.pma vpn
    · exact yields_pure rfl
  refine hpop.bind fun pma hpma => yields_after fun _ => yields_pure ?_
  change ({ vma with pma := ⟨∅,pma.backenFile⟩ } : VirtMemoryAddr) = _
  rw [hpma]
  rfl

theorem remove_shape (pt : PageTable) : Yields (vma.remove pt) fun r => shape r = shape vma := by
  refine yields_after fun first => yields_after fun last => ?_
  refine yields_foldlM (fun r => shape r = shape vma) ?_ _ _ rfl
  intro vpn r hr
  exact (unmapPage_shape r pt vpn).imp fun _ h => h.trans hr

theorem modify_shape (flags : MapPermission) (pt : PageTable) :
    Yields (vma.modify flags pt) fun r => r = recolour vma flags :=
  yields_after fun _ => yields_pure rfl

theorem isOverlap_yields (a b : ℕ) :
    Yields (vma.isOverlap a b) fun r => r = decide (Overlaps vma a b) :=
  fun _ => (isOverlap_holds vma a b).mono (fun _ _ h => h.1) fun _ _ _ => trivial

end

theorem alignDown_yields (va : ℕ) : Yields (alignDown va : Kernel ℕ) fun r => r = pageDown va :=
  fun _ => (alignDown_holds va).mono (fun _ _ h => h.1) fun _ _ _ => trivial

theorem alignUp_yields (va : ℕ) : Yields (alignUp va : Kernel ℕ) fun r => r = pageUp va :=
  fun _ => (alignUp_holds va).mono (fun _ _ h => h.1) fun _ _ _ => trivial

def splitBy : UnmapOverlap → Option VirtMemoryAddr
  | .split right => some right
  | _ => none

theorem unmapIfOverlap_shape (vma : VirtMemoryAddr) (first last : ℕ) (pt : PageTable) :
    Yields (vma.unmapIfOverlap first last pt) fun r =>
      shape r.1 = shape (cutVma vma (pageDown first) (pageUp last)).1 ∧
        (splitBy r.2).map shape = (cutVma vma (pageDown first) (pageUp last)).2.map shape := by
  refine (alignDown_yields first).bind ?_
  rintro _ rfl
  refine (alignUp_yields last).bind ?_
  rintro _ rfl
  refine (isOverlap_yields vma _ _).bind ?_
  rintro _ rfl
  unfold cutVma
  by_cases ho : Overlaps vma (pageDown first) (pageUp last)
  · rw [if_neg (not_not.mpr ho),decide_eq_true ho,Bool.not_true,if_neg Bool.false_ne_true]
    split
    · split
      · refine (split_shape vma _).bind fun parts hparts => ?_
        exact yields_after fun _ => yields_after fun _ => yields_pure ⟨hparts.2,rfl⟩
      · refine (remove_shape vma pt).bind fun r hr => yields_pure ⟨?_,rfl⟩
        rw [shape_emptied]
        exact hr
    · split
      · refine (split_shape vma _).bind fun parts hparts => ?_
        refine (split_shape parts.1 _).bind fun inner hinner => ?_
        refine yields_after fun _ => yields_after fun _ => yields_pure ⟨?_,congrArg some hparts.2⟩
        exact hinner.1.trans (shape_leftPart hparts.1 _)
      · refine (split_shape vma _).bind fun parts hparts => ?_
        exact yields_after fun _ => yields_after fun _ => yields_pure ⟨hparts.1,rfl⟩
  · rw [if_pos ho,decide_eq_false ho,Bool.not_false,if_pos rfl]
    exact yields_pure ⟨rfl,rfl⟩

theorem splitAndModify_shape (vma : VirtMemoryAddr) (first last : ℕ) (flags : MapPermission)
    (pt : PageTable) :
    Yields (vma.splitAndModifyIfOverlap first last flags pt) fun r =>
      shape r.1 = shape (protectVma vma first last flags).1 ∧
        (insertedBy r.2).map shape = (protectVma vma first last flags).2.map shape := by
  refine (isOverlap_yields vma first last).bind ?_
  rintro _ rfl
  unfold protectVma
  by_cases ho : Overlaps vma first last
  · rw [if_neg (not_not.mpr ho),decide_eq_true ho,Bool.not_true,if_neg Bool.false_ne_true]
    split
    · split
      · refine (split_shape vma last).bind fun parts hparts => ?_
        refine (modify_shape parts.1 flags pt).bind ?_
        rintro _ rfl
        exact yields_pure ⟨shape_recolour hparts.1 flags,congrArg (fun v => [v]) hparts.2⟩
      · refine (modify_shape vma flags pt).bind ?_
        rintro _ rfl
        exact yields_pure ⟨rfl,rfl⟩
    · split
      · refine (split_shape vma last).bind fun parts hparts => ?_
        refine (split_shape parts.1 first).bind fun inner hinner => ?_
        refine (modify_shape inner.2 flags pt).bind ?_
        rintro _ rfl
        refine yields_pure ⟨hinner.1.trans (shape_leftPart hparts.1 first),?_⟩
        exact congrArg₂ (fun v u => [v,u]) hparts.2
          (shape_recolour (hinner.2.trans (shape_rightPart hparts.1 first)) flags)
      · refine (split_shape vma first).bind fun parts hparts => ?_
        refine (modify_shape parts.2 flags pt).bind ?_
        rintro _ rfl
        exact yields_pure ⟨hparts.1,congrArg (fun v => [v]) (shape_recolour hparts.2 flags)⟩
  · rw [if_pos ho,decide_eq_false ho,Bool.not_false,if_pos rfl]
    exact yields_pure ⟨rfl,rfl⟩

def bare (areas : VmaRange) : View := ⟨areas, fun _ => none⟩

theorem overlapping_yields (areas : VmaRange) (first last : ℕ) :
    Yields (VmaRange.overlapping areas first last) fun r => r = overlapKeys areas first last :=
  fun _ => (overlapLoop_holds first last areas.toList []).mono
    (fun _ _ h => h.1) fun _ _ _ => trivial

theorem insertSegment_yields (areas : VmaRange) (key : ℕ) (vma : VirtMemoryAddr) :
    Yields (VmaRange.insertSegment areas key vma) fun r => r = areas.insert key vma :=
  yields_after fun _ => yields_pure rfl

theorem unmapAt_shape (h : SameShape areas w.areas) (first last : ℕ) (pt : PageTable) (i : ℕ) :
    Yields (VmaRange.unmapAt first last pt areas i) fun r =>
      SameShape r (cutAt (pageDown first) (pageUp last) w i).areas := by
  unfold VmaRange.unmapAt
  cases hi : areas[i]? with
  | none =>
    rw [cutAt_none (h.absent hi)]
    exact yields_pure h
  | some vma =>
    obtain ⟨vma',hw,hv⟩ := h.found hi
    refine (unmapIfOverlap_shape vma first last pt).bind ?_
    rintro ⟨left,cut⟩ ⟨hleft,hcut⟩
    obtain ⟨hleft',hcut'⟩ := shape_cutVma hv (pageDown first) (pageUp last)
    have hstays := h.insert i (hleft.trans hleft')
    have htorn := hcut.trans hcut'
    unfold cutAt
    simp only [hw]
    cases cut with
    | split right =>
      obtain ⟨right',hr,hs⟩ := Option.map_eq_some_iff.mp htorn.symm
      rw [hr]
      refine (insertSegment_yields _ right.startVaddr right).imp ?_
      rintro _ rfl
      dsimp only
      rw [← shape_start hs.symm]
      exact hstays.insert _ hs.symm
    | unchange | shrink | removed =>
      rw [Option.map_eq_none_iff.mp htorn.symm]
      exact yields_pure hstays

theorem unmap_shape (areas : VmaRange) (first last : ℕ) (pt : PageTable) :
    Yields (VmaRange.unmap areas first last pt) fun r =>
      SameShape r (View.unmap (bare areas) first last).areas := by
  unfold VmaRange.unmap View.unmap
  split
  · exact yields_pure (SameShape.refl areas)
  · refine (overlapping_yields areas first last).bind ?_
    rintro _ rfl
    exact yields_foldlM_foldl (R := fun areas (w : View) => SameShape areas w.areas)
      (fun i _ _ h => unmapAt_shape h first last pt i) _ (SameShape.refl areas)

theorem insertAll_shape : ∀ (l l' : List VirtMemoryAddr) {areas areas' : VmaRange},
    l.map shape = l'.map shape → SameShape areas areas' →
    Yields (l.foldlM VmaRange.insertRaw areas) fun r => SameShape r (insertAll areas' l') := by
  intro l
  induction l with
  | nil =>
    intro l' areas areas' hl h
    rw [List.map_eq_nil_iff.mp hl.symm]
    exact yields_pure h
  | cons vma l ih =>
    intro l' areas areas' hl h
    cases l' with
    | nil => cases hl
    | cons vma' l' =>
      rw [List.map_cons,List.map_cons,List.cons.injEq] at hl
      refine (insertSegment_yields areas vma.startVaddr vma).bind ?_
      rintro _ rfl
      have hinserted := h.insert vma.startVaddr hl.1
      rw [shape_start hl.1] at hinserted ⊢
      exact ih l' hl.2 hinserted

theorem mprotectAt_shape (h : SameShape areas w.areas) (first last : ℕ) (flags : MapPermission)
    (pt : PageTable) (i : ℕ) : Yields (VmaRange.mprotectAt first last flags pt areas i) fun r =>
      SameShape r (protectAt first last flags w i).areas := by
  unfold VmaRange.mprotectAt protectAt
  cases hi : areas[i]? with
  | none =>
    rw [h.absent hi]
    exact yields_pure h
  | some vma =>
    obtain ⟨vma',hw,hv⟩ := h.found hi
    rw [hw]
    refine (splitAndModify_shape vma first last flags pt).bind ?_
    rintro ⟨stays,parts⟩ ⟨hstays,hparts⟩
    obtain ⟨hstays',hparts'⟩ := shape_protectVma hv first last flags
    rw [insertParts_eq]
    exact insertAll_shape _ _ (hparts.trans hparts') (h.insert i (hstays.trans hstays'))

theorem mprotect_shape (areas : VmaRange) (first last : ℕ) (flags : MapPermission)
    (pt : PageTable) :
    Yields (VmaRange.mprotect areas first last flags pt) fun r =>
      SameShape r (View.protect (bare areas) first last flags).areas := by
  refine (overlapping_yields areas first last).bind ?_
  rintro _ rfl
  exact yields_foldlM_foldl (R := fun areas (w : View) => SameShape areas w.areas)
    (fun i _ _ h => mprotectAt_shape h first last flags pt i) _ (SameShape.refl areas)

theorem pushPmaPage_backing (pma : PhysMemoryAddr) (vpn : ℕ) (page : Page) :
    Yields (pma.pushPmaPage vpn page) fun r => r.backenFile = pma.backenFile :=
  yields_after fun _ => yields_pure rfl

theorem installPage_backing (pma : PhysMemoryAddr) (vaddr : ℕ) (page : Page) (flag : PTEFlags)
    (pt : PageTable) :
    Yields (installPage pma vaddr page flag pt) fun r => r.1.backenFile = pma.backenFile := by
  refine yields_after fun vpn => (pushPmaPage_backing pma vpn page).bind fun pma' hpma => ?_
  exact yields_after fun _ => yields_after fun _ => yields_pure hpma

theorem installFresh_backing (pma : PhysMemoryAddr) (vaddr : ℕ) (permission : MapPermission)
    (flag : PTEFlags) (pt : PageTable) :
    Yields (installFresh pma vaddr permission flag pt) fun r => r.1.backenFile = pma.backenFile :=
  yields_after fun _ => yields_after fun page => installPage_backing pma vaddr page flag pt

theorem runHandler_backing (vma : VirtMemoryAddr) (vaddr : ℕ) (pt : PageTable) :
    Yields (VirtMemoryAddr.runHandler vma vaddr pt) fun r =>
      r.1.backenFile = vma.pma.backenFile := by
  unfold VirtMemoryAddr.runHandler
  split
  · exact yields_pure rfl
  · exact installFresh_backing _ _ _ _ _
  · exact installFresh_backing _ _ _ _ _
  · unfold mmapHandler
    split
    · exact yields_after fun page => installPage_backing _ _ page _ _
    · exact installFresh_backing _ _ _ _ _
  · exact yields_throw _ _

theorem cowHandler_backing (pma : PhysMemoryAddr) (vaddr : ℕ) (cow : BTreeMap Page)
    (pt : PageTable) :
    Yields (cowHandler pma vaddr cow pt) fun r => r.1.backenFile = pma.backenFile := by
  refine yields_after fun found => yields_after fun slot => yields_after fun pte => ?_
  refine yields_after fun vpn => yields_after fun page => yields_after fun copy => ?_
  refine yields_after fun _ => yields_after fun _ => yields_after fun _ => ?_
  refine yields_after fun shared => (pushPmaPage_backing pma vpn shared).bind fun pma' hpma => ?_
  exact yields_after fun _ => yields_pure hpma

theorem handlePageFault_shape (ms : MemorySet) (vaddr : ℕ) :
    Yields (ms.handlePageFault vaddr) fun r => SameShape r.1.areas ms.areas := by
  unfold MemorySet.handlePageFault
  cases hfound : ms.findVmByVaddr vaddr with
  | none => exact yields_pure (SameShape.refl _)
  | some e =>
    obtain ⟨key,vma⟩ := e
    have hk : ms.areas[key]? = some vma := mem_toList.mp (List.mem_of_find?_eq_some hfound)
    have kept : ∀ pma : PhysMemoryAddr, pma.backenFile = vma.pma.backenFile →
        SameShape (ms.areas.insert key { vma with pma := pma }) ms.areas := by
      intro pma hpma
      refine SameShape.replaced hk ?_
      change ({ vma with pma := ⟨∅,pma.backenFile⟩ } : VirtMemoryAddr) = _
      rw [hpma]
      rfl
    refine yields_after fun inCow => ?_
    cases inCow with
    | true => exact (cowHandler_backing _ _ _ _).bind fun r hr => yields_pure (kept r.1 hr)
    | false =>
      unfold VirtMemoryAddr.handlePageFault
      simp only [bind_assoc,pure_bind]
      exact (runHandler_backing vma vaddr ms.pt).bind fun r hr => yields_pure (kept r.1 hr)

end DuckOs.SegmentShapes
