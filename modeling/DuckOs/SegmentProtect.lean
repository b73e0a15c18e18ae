import DuckOs.PageInstalls

namespace DuckOs.SegmentProtect
open ExecutionRules AddressModel PermissionFlags KernelMachine PageTableModel PageModel Function
open VirtMemoryModel MemorySetModel
open FrameOwnership SegmentViews SegmentUnmap AreaUnmap
open OrderedMaps

variable {P : ℕ → VirtMemoryAddr → Prop} {w : View} {m : Machine} {pt : PageTable} {root a b : ℕ}
  {K : ℕ → Prop} {h ext : ℕ → ℕ}

def recolour (vma : VirtMemoryAddr) (flags : MapPermission) : VirtMemoryAddr :=
  { vma with mapPermission := flags }

def protectVma (vma : VirtMemoryAddr) (a b : ℕ) (flags : MapPermission) :
    VirtMemoryAddr × List VirtMemoryAddr :=
  if ¬ Overlaps vma a b then (vma, [])
  else if a ≤ vma.startVaddr then
    if b < vma.endVaddr then (recolour (leftPart vma b) flags, [rightPart vma b])
    else (recolour vma flags, [])
  else if b < vma.endVaddr then
    (leftPart (leftPart vma b) a,
      [rightPart vma b, recolour (rightPart (leftPart vma b) a) flags])
  else (leftPart vma a, [recolour (rightPart vma a) flags])

def protectedPages (vma : VirtMemoryAddr) (a b : ℕ) : BTreeMap Page :=
  if ¬ Overlaps vma a b then ∅
  else if a ≤ vma.startVaddr then
    if b < vma.endVaddr then (leftPart vma b).pma.pageManager else vma.pma.pageManager
  else if b < vma.endVaddr then (rightPart (leftPart vma b) a).pma.pageManager
  else (rightPart vma a).pma.pageManager

def reflag (pte : ℕ → Option ℕ) (pages : BTreeMap Page) (flags : MapPermission) : ℕ → Option ℕ :=
  fun v => if pages[v]? = none then pte v
    else (pte v).map fun w => PageTable.replaceFlags w (pteFlagsFrom flags)

def insertAll (areas : VmaRange) (l : List VirtMemoryAddr) : VmaRange :=
  l.foldl (fun t vma => t.insert vma.startVaddr vma) areas

def protectAt (a b : ℕ) (flags : MapPermission) (w : View) (i : ℕ) : View :=
  match w.areas[i]? with
  | none => w
  | some vma =>
    ⟨insertAll (w.areas.insert i (protectVma vma a b flags).1) (protectVma vma a b flags).2,
      reflag w.pte (protectedPages vma a b) flags⟩

def View.protect (w : View) (first last : ℕ) (flags : MapPermission) : View :=
  (overlapKeys w.areas first last).foldl (protectAt first last flags) w

structure ProtectReady (vma : VirtMemoryAddr) (a b : ℕ) : Prop where
  right : Overlaps vma a b → b < vma.endVaddr → SplitReady vma b
  inner : Overlaps vma a b → vma.startVaddr < a → b < vma.endVaddr → SplitReady (leftPart vma b) a
  left : Overlaps vma a b → vma.startVaddr < a → vma.endVaddr ≤ b → SplitReady vma a

def ProtectRounds (a b : ℕ) (flags : MapPermission) : View → List ℕ → Prop
  | _, [] => True
  | w, i :: is => (∀ vma, w.areas[i]? = some vma → ProtectReady vma a b) ∧
      ProtectRounds a b flags (protectAt a b flags w i) is

section Modify

theorem modifyLoop_space (flags : PTEFlags) : ∀ (l : List (ℕ × Page)) (m : Machine),
    (l.map (·.1)).Nodup → (∀ e ∈ l, e.1 < 2 ^ 52) → Space m pt root K h ext →
    Holds (l.foldlM (fun _ entry => PageTable.modifyFlags pt entry.1 flags) ()) m
      (fun _ m' => (∀ v ∈ l.map (·.1), pteAt m root v ≠ none) ∧ Space m' pt root K h ext ∧
        TableWrite m m' pt K ∧
        pteAt m' root = fun v => if v ∈ l.map (·.1) then
          (pteAt m root v).map fun w => PageTable.replaceFlags w flags else pteAt m root v)
      (fun _ _ => ∃ v ∈ l.map (·.1), pteAt m root v = none) := by
  intro l
  induction l with
  | nil =>
    intro m _ _ s
    refine holds_pure ⟨by simp,s,TableWrite.refl m pt K,?_⟩
    funext v
    rw [List.map_nil,if_neg List.not_mem_nil]
  | cons e l ih =>
    intro m hnd hlt s
    rw [List.map_cons,List.nodup_cons] at hnd
    refine ((ptModify_space s (hlt e List.mem_cons_self) flags).onError
      fun _ _ hnone => ⟨e.1,by simp,hnone⟩).bind ?_
    rintro - m₁ ⟨-,s₁,⟨w,-,hw,hpte₁⟩,hwrite₁⟩
    have hothers : ∀ v ∈ l.map (·.1), pteAt m₁ root v = pteAt m root v := by
      intro v hv
      rw [hpte₁,update_of_ne]
      rintro rfl
      exact hnd.1 hv
    refine (ih m₁ hnd.2 (fun e' he' => hlt e' (List.mem_cons_of_mem _ he')) s₁).mono ?_ ?_
    · rintro - m₂ ⟨hfound,s₂,hwrite₂,hpte₂⟩
      refine ⟨?_,s₂,⟨?_,fun g hg => (hwrite₂.data g hg).trans (hwrite₁.data g hg)⟩,?_⟩
      · intro v hv
        rcases List.mem_cons.mp hv with rfl | hv
        · simp [hw]
        · rw [← hothers v hv]
          exact hfound v hv
      · rw [hwrite₂.rest,hwrite₁.rest]
      · rw [hpte₂,hpte₁]
        funext v
        by_cases hv : v = e.1
        · rw [hv,if_neg hnd.1,update_self,List.map_cons,if_pos List.mem_cons_self,hw]
          rfl
        · have hmem : v ∈ (e :: l).map (·.1) ↔ v ∈ l.map (·.1) := by
            rw [List.map_cons,List.mem_cons]
            exact ⟨fun hc => hc.resolve_left hv,.inr⟩
          simp only [hmem,update_of_ne hv]
    · rintro _ _ ⟨v,hv,hnone⟩
      rw [hothers v hv] at hnone
      exact ⟨v,List.mem_cons_of_mem _ hv,hnone⟩

theorem mem_keys {pages : BTreeMap Page} {v : ℕ} :
    v ∈ pages.toList.map (·.1) ↔ pages[v]? ≠ none := by
  rw [List.mem_map]
  constructor
  · rintro ⟨⟨k,page⟩,hmem,rfl⟩ hc
    rw [mem_toList.mp hmem] at hc
    cases hc
  · intro hne
    obtain ⟨page,hp⟩ := Option.ne_none_iff_exists'.mp hne
    exact ⟨(v, page),mem_toList.mpr hp,rfl⟩

theorem keys_nodup (pages : BTreeMap Page) : (pages.toList.map (·.1)).Nodup := by
  rw [List.Nodup,List.pairwise_map]
  exact (sorted_toList pages).imp fun hlt => hlt.ne

/-- Page numbers whose addresses fit in a word. -/
def Numbered (pages : BTreeMap Page) : Prop := ∀ v : ℕ, pages[v]? ≠ none → v < 2 ^ 52

/-- The entries that get new flags exist. -/
def Entered (pages : BTreeMap Page) (pte : ℕ → Option ℕ) : Prop :=
  ∀ v : ℕ, pages[v]? ≠ none → pte v ≠ none

theorem modify_space (vma : VirtMemoryAddr) (flags : MapPermission)
    (hnum : Numbered vma.pma.pageManager) (s : Space m pt root K h ext) :
    Holds (vma.modify flags pt) m
      (fun r m' => Entered vma.pma.pageManager (pteAt m root) ∧ r = recolour vma flags ∧
        Space m' pt root K h ext ∧ UnmapStep m m' pt K ∧
        pteAt m' root = reflag (pteAt m root) vma.pma.pageManager flags)
      (fun _ _ => ¬ Entered vma.pma.pageManager (pteAt m root)) := by
  refine ((modifyLoop_space (pteFlagsFrom flags) vma.pma.pageManager.toList m
    (keys_nodup _) (fun e he => hnum e.1 ?_) s).onError ?_).bind ?_
  · exact mem_keys.mp (List.mem_map_of_mem he)
  · rintro _ _ ⟨v,hv,hnone⟩ entered
    exact entered v (mem_keys.mp hv) hnone
  rintro - m' ⟨hfound,s',hwrite,hpte⟩
  refine holds_pure ⟨fun v hv => hfound v (mem_keys.mpr hv),rfl,s',
    UnmapStep.ofTables hwrite,?_⟩
  rw [hpte]
  funext v
  unfold reflag
  by_cases hv : vma.pma.pageManager[v]? = none
  · rw [if_pos hv,if_neg fun hc => mem_keys.mp hc hv]
  · rw [if_neg hv,if_pos (mem_keys.mpr hv)]

theorem numbered_left {vma : VirtMemoryAddr} (hnum : Numbered vma.pma.pageManager) (pos : ℕ) :
    Numbered (leftPart vma pos).pma.pageManager := by
  intro v hv
  change (carve vma.pma.pageManager _ _)[v]? ≠ none at hv
  rw [getElem?_carve] at hv
  split at hv
  · exact (hv rfl).elim
  · exact hnum v hv

theorem numbered_right {vma : VirtMemoryAddr} (hnum : Numbered vma.pma.pageManager) (pos : ℕ) :
    Numbered (rightPart vma pos).pma.pageManager := by
  intro v hv
  change (slice vma.pma.pageManager _ _)[v]? ≠ none at hv
  rw [getElem?_slice] at hv
  split at hv
  · exact hnum v hv
  · exact (hv rfl).elim

end Modify

section Rounds

def insertedBy : SplitOverlap → List VirtMemoryAddr
  | .shrinkLeft right => [right]
  | .shrinkRight right => [right]
  | .split middle right => [right, middle]
  | .unchange => []
  | .modified => []

def allHeld (l : List VirtMemoryAddr) (p : ℕ) : ℕ := (l.map fun vma => vmaHeld vma p).sum

theorem allHeld_one (vma : VirtMemoryAddr) (p : ℕ) : allHeld [vma] p = vmaHeld vma p := by
  simp [allHeld]

theorem allHeld_two (vma vma' : VirtMemoryAddr) (p : ℕ) :
    allHeld [vma, vma'] p = vmaHeld vma p + vmaHeld vma' p := by
  simp [allHeld]

structure ProtectPost (m : Machine) (pt : PageTable) (root : ℕ) (K : ℕ → Prop) (h ext : ℕ → ℕ)
    (vma : VirtMemoryAddr) (a b : ℕ) (flags : MapPermission) (r : VirtMemoryAddr × SplitOverlap)
    (m' : Machine) : Prop where
  ready : ProtectReady vma a b
  result : (r.1, insertedBy r.2) = protectVma vma a b flags
  space : Space m' pt root K (fun p => h p + (vmaHeld r.1 p + allHeld (insertedBy r.2) p)) ext
  pte : pteAt m' root = reflag (pteAt m root) (protectedPages vma a b) flags
  step : UnmapStep m m' pt K

theorem reflag_empty (pte : ℕ → Option ℕ) (flags : MapPermission) : reflag pte ∅ flags = pte := by
  funext v
  rw [reflag,if_pos Std.ExtTreeMap.getElem?_empty]

structure ModifyReady (vma : VirtMemoryAddr) (a b : ℕ) (pte : ℕ → Option ℕ) : Prop where
  splits : ProtectReady vma a b
  entries : Entered (protectedPages vma a b) pte

section ShapeEquations

variable {vma : VirtMemoryAddr}

section

variable (flags : MapPermission) (ho : Overlaps vma a b)
include ho

theorem protectVma_left (ha : a ≤ vma.startVaddr) (hb : b < vma.endVaddr) :
    protectVma vma a b flags = (recolour (leftPart vma b) flags, [rightPart vma b]) := by
  rw [protectVma,if_neg (not_not.mpr ho),if_pos ha,if_pos hb]

theorem protectVma_whole (ha : a ≤ vma.startVaddr) (hb : vma.endVaddr ≤ b) :
    protectVma vma a b flags = (recolour vma flags, []) := by
  rw [protectVma,if_neg (not_not.mpr ho),if_pos ha,if_neg (not_lt.mpr hb)]

theorem protectVma_inside (ha : vma.startVaddr < a) (hb : b < vma.endVaddr) :
    protectVma vma a b flags = (leftPart (leftPart vma b) a,
      [rightPart vma b, recolour (rightPart (leftPart vma b) a) flags]) := by
  rw [protectVma,if_neg (not_not.mpr ho),if_neg (not_le.mpr ha),if_pos hb]

theorem protectVma_right (ha : vma.startVaddr < a) (hb : vma.endVaddr ≤ b) :
    protectVma vma a b flags = (leftPart vma a, [recolour (rightPart vma a) flags]) := by
  rw [protectVma,if_neg (not_not.mpr ho),if_neg (not_le.mpr ha),if_neg (not_lt.mpr hb)]

end

theorem protectVma_apart (flags : MapPermission) (ho : ¬ Overlaps vma a b) :
    protectVma vma a b flags = (vma, []) := by
  rw [protectVma,if_pos ho]

theorem protectedPages_left (ho : Overlaps vma a b) (ha : a ≤ vma.startVaddr)
    (hb : b < vma.endVaddr) : protectedPages vma a b = (leftPart vma b).pma.pageManager := by
  rw [protectedPages,if_neg (not_not.mpr ho),if_pos ha,if_pos hb]

theorem protectedPages_whole (ho : Overlaps vma a b) (ha : a ≤ vma.startVaddr)
    (hb : vma.endVaddr ≤ b) : protectedPages vma a b = vma.pma.pageManager := by
  rw [protectedPages,if_neg (not_not.mpr ho),if_pos ha,if_neg (not_lt.mpr hb)]

theorem protectedPages_inside (ho : Overlaps vma a b) (ha : vma.startVaddr < a)
    (hb : b < vma.endVaddr) :
    protectedPages vma a b = (rightPart (leftPart vma b) a).pma.pageManager := by
  rw [protectedPages,if_neg (not_not.mpr ho),if_neg (not_le.mpr ha),if_pos hb]

theorem protectedPages_right (ho : Overlaps vma a b) (ha : vma.startVaddr < a)
    (hb : vma.endVaddr ≤ b) : protectedPages vma a b = (rightPart vma a).pma.pageManager := by
  rw [protectedPages,if_neg (not_not.mpr ho),if_neg (not_le.mpr ha),if_neg (not_lt.mpr hb)]

theorem modifyReady_apart (pte : ℕ → Option ℕ) (ho : ¬ Overlaps vma a b) :
    ModifyReady vma a b pte := by
  refine ⟨⟨fun h' => (ho h').elim,fun h' => (ho h').elim,fun h' => (ho h').elim⟩,?_⟩
  intro v hv
  rw [protectedPages,if_pos ho] at hv
  exact (hv Std.ExtTreeMap.getElem?_empty).elim

end ShapeEquations

variable (vma : VirtMemoryAddr) (flags : MapPermission)

theorem modifyPart_space {part : VirtMemoryAddr}
    {f : VirtMemoryAddr → VirtMemoryAddr × SplitOverlap}
    (hnum : Numbered part.pma.pageManager)
    (s : Space m pt root K (fun p => h p + vmaHeld vma p) ext)
    (hpages : protectedPages vma a b = part.pma.pageManager)
    (hresult : ((f (recolour part flags)).1, insertedBy (f (recolour part flags)).2) =
      protectVma vma a b flags)
    (hheld : ∀ p, vmaHeld (f (recolour part flags)).1 p +
      allHeld (insertedBy (f (recolour part flags)).2) p ≤ vmaHeld vma p)
    (splits : ProtectReady vma a b) :
    Holds (do
        let done ← part.modify flags pt
        pure (f done)) m
      (fun r m' => ModifyReady vma a b (pteAt m root) ∧
        ProtectPost m pt root K h ext vma a b flags r m')
      (fun _ _ => ¬ ModifyReady vma a b (pteAt m root)) := by
  refine ((modify_space part flags hnum s).onError ?_).bind ?_
  · rintro _ _ hnot ready
    exact hnot (hpages ▸ ready.entries)
  · rintro _ m₁ ⟨hentries,rfl,s₁,hstep,hpte⟩
    refine holds_pure ⟨⟨splits,hpages.symm ▸ hentries⟩,splits,hresult,?_,?_,hstep⟩
    · exact s₁.held_congr fun p => Nat.add_le_add_left (hheld p) _
    · rw [hpages]
      exact hpte

theorem splitAndModify_space (hnum : Numbered vma.pma.pageManager)
    (s : Space m pt root K (fun p => h p + vmaHeld vma p) ext) :
    Holds (vma.splitAndModifyIfOverlap a b flags pt) m
      (fun r m' => ModifyReady vma a b (pteAt m root) ∧
        ProtectPost m pt root K h ext vma a b flags r m')
      (fun _ _ => a ≤ b → ¬ ModifyReady vma a b (pteAt m root)) := by
  refine ((isOverlap_holds vma a b).onError fun _ _ hn hab => (hn hab).elim).bind ?_
  rintro _ _ ⟨rfl,rfl,hab⟩
  by_cases ho : Overlaps vma a b
  · rw [decide_eq_true ho,Bool.not_true,if_neg Bool.false_ne_true]
    have hlt := (overlaps_iff.mp ho).2
    by_cases ha : a ≤ vma.startVaddr
    · rw [if_pos ha]
      by_cases hb : b < vma.endVaddr
      · rw [if_pos hb]
        refine ((split_holds vma b (Nat.div_le_div_right hb.le)).onError
          fun _ _ hn _ ready => hn (ready.splits.right ho hb)).bind ?_
        rintro _ _ ⟨rfl,rfl,hsplit⟩
        refine (modifyPart_space vma flags (f := fun v => (v, .shrinkLeft (rightPart vma b)))
          (numbered_left hnum b) s (protectedPages_left ho ha hb)
          (protectVma_left flags ho ha hb).symm ?_ ?_).onError fun _ _ hn _ => hn
        · intro p
          rw [vmaHeld_parts vma b p,insertedBy,allHeld_one]
          exact le_rfl
        · exact ⟨fun _ _ => hsplit,fun _ h' => by omega,fun _ h' => by omega⟩
      · rw [if_neg hb]
        have hb' := not_lt.mp hb
        refine (modifyPart_space vma flags (f := fun v => (v, .modified)) hnum s
          (protectedPages_whole ho ha hb') (protectVma_whole flags ho ha hb').symm ?_ ?_).onError
          fun _ _ hn _ => hn
        · exact fun p => le_rfl
        · exact ⟨fun _ h' => (hb h').elim,fun _ h' => by omega,fun _ h' => by omega⟩
    · rw [if_neg ha]
      have ha' := not_le.mp ha
      by_cases hb : b < vma.endVaddr
      · rw [if_pos hb]
        refine ((split_holds vma b (Nat.div_le_div_right hb.le)).onError
          fun _ _ hn _ ready => hn (ready.splits.right ho hb)).bind ?_
        rintro _ _ ⟨rfl,rfl,hsplit⟩
        refine ((split_holds (leftPart vma b) a (Nat.div_le_div_right hab)).onError
          fun _ _ hn _ ready => hn (ready.splits.inner ho ha' hb)).bind ?_
        rintro _ _ ⟨rfl,rfl,hinner⟩
        refine (modifyPart_space vma flags
          (f := fun v => (leftPart (leftPart vma b) a, .split v (rightPart vma b)))
          (numbered_right (numbered_left hnum b) a) s (protectedPages_inside ho ha' hb)
          (protectVma_inside flags ho ha' hb).symm ?_ ?_).onError fun _ _ hn _ => hn
        · intro p
          have hmiddle : vmaHeld (recolour (rightPart (leftPart vma b) a) flags) p =
            vmaHeld (rightPart (leftPart vma b) a) p := rfl
          rw [vmaHeld_parts vma b p,vmaHeld_parts (leftPart vma b) a p,insertedBy,allHeld_two,
            hmiddle]
          dsimp only
          omega
        · exact ⟨fun _ _ => hsplit,fun _ _ _ => hinner,fun _ _ h' => by omega⟩
      · rw [if_neg hb]
        have hb' := not_lt.mp hb
        refine ((split_holds vma a (Nat.div_le_div_right hlt.le)).onError
          fun _ _ hn _ ready => hn (ready.splits.left ho ha' hb')).bind ?_
        rintro _ _ ⟨rfl,rfl,hsplit⟩
        refine (modifyPart_space vma flags (f := fun v => (leftPart vma a, .shrinkRight v))
          (numbered_right hnum a) s (protectedPages_right ho ha' hb')
          (protectVma_right flags ho ha' hb').symm ?_ ?_).onError fun _ _ hn _ => hn
        · intro p
          rw [vmaHeld_parts vma a p,insertedBy,allHeld_one]
          exact le_rfl
        · exact ⟨fun _ h' => (hb h').elim,fun _ _ h' => (hb h').elim,fun _ _ _ => hsplit⟩
  · rw [decide_eq_false ho,Bool.not_false,if_pos rfl]
    have ready := modifyReady_apart (pteAt m root) ho
    refine holds_pure ⟨ready,ready.splits,(protectVma_apart flags ho).symm,
      s.held_congr fun p => le_rfl,?_,UnmapStep.refl m pt K⟩
    rw [protectedPages,if_pos ho,reflag_empty]

theorem insertAll_space : ∀ (l : List VirtMemoryAddr) (areas : VmaRange) (m : Machine),
    Space m pt root K (fun p => h p + (areasHeld areas p + allHeld l p)) ext →
    Holds (l.foldlM VmaRange.insertRaw areas) m
      (fun r m' => Reaches m pt root K h ext ⟨insertAll areas l, pteAt m root⟩ r m')
      (Never Panic Machine) := by
  intro l
  induction l with
  | nil =>
    intro areas m s
    exact holds_pure ⟨rfl,s.held_congr fun p => by simp [allHeld],UnmapStep.refl m pt K⟩
  | cons vma l ih =>
    intro areas m s
    have s' : Space m pt root K
        (fun p => (h p + allHeld l p) + (areasHeld areas p + vmaHeld vma p)) ext := by
      refine s.held_congr fun p => ?_
      simp only [allHeld,List.map_cons,List.sum_cons]
      omega
    refine (insertSegment_space areas vma.startVaddr vma s').bind ?_
    rintro _ m₁ ⟨rfl,s₁,hpte₁,hstep₁⟩
    refine (ih _ m₁ (s₁.held_congr fun p => by omega)).imp ?_
    rintro r m₂ ⟨hview,s₂,hstep₂⟩
    refine ⟨?_,s₂,hstep₁.trans hstep₂⟩
    rw [hview,hpte₁]
    rfl

theorem insertParts_eq (areas : VmaRange) (r : SplitOverlap) :
    VmaRange.insertParts areas r = (insertedBy r).foldlM VmaRange.insertRaw areas := by
  cases r <;> simp [insertedBy,VmaRange.insertParts]

def AllNumbered (areas : VmaRange) : Prop :=
  ∀ (k : ℕ) (vma : VirtMemoryAddr), areas[k]? = some vma → Numbered vma.pma.pageManager

theorem mprotectAt_space (areas : VmaRange) (i : ℕ) (hnum : AllNumbered areas)
    (s : Space m pt root K (fun p => h p + areasHeld areas p) ext) :
    Holds (VmaRange.mprotectAt a b flags pt areas i) m
      (fun r m' => (∀ vma, areas[i]? = some vma → ModifyReady vma a b (pteAt m root)) ∧
        Reaches m pt root K h ext (protectAt a b flags (viewOf areas m root) i) r m')
      (fun _ _ => a ≤ b →
        ¬ ∀ vma, areas[i]? = some vma → ModifyReady vma a b (pteAt m root)) := by
  unfold VmaRange.mprotectAt
  cases hi : areas[i]? with
  | none =>
    refine holds_pure ⟨fun vma hv => (by cases hv),?_,s,UnmapStep.refl m pt K⟩
    unfold protectAt viewOf
    simp only [hi]
  | some vma =>
    have hheld : ∀ p, areasHeld areas p = areasHeld (areas.erase i) p + vmaHeld vma p := by
      intro p
      have he := total_erase (fun v => vmaHeld v p) areas i
      rw [weightAt_some hi] at he
      unfold areasHeld
      omega
    have s' : Space m pt root K (fun p => (h p + areasHeld (areas.erase i) p) + vmaHeld vma p)
        ext := by
      refine s.held_congr fun p => ?_
      rw [hheld]
      omega
    refine ((splitAndModify_space vma flags (hnum i vma hi) s').onError
      fun _ _ hn hab ready => hn hab (ready vma rfl)).bind ?_
    rintro ⟨vma',r⟩ m₁ ⟨ready,post⟩
    have hresult := post.result
    rw [insertParts_eq]
    have s₁ : Space m₁ pt root K
        (fun p => h p + (areasHeld (areas.insert i vma') p + allHeld (insertedBy r) p)) ext := by
      refine post.space.held_congr fun p => ?_
      have h₁ := areasHeld_replace hi vma' p
      have h₂ := hheld p
      dsimp only
      omega
    refine (insertAll_space (insertedBy r) _ m₁ s₁).weaken.imp ?_
    rintro areas' m₂ ⟨hview,s₂,hstep⟩
    refine ⟨fun v hv => ?_,?_,s₂,post.step.trans hstep⟩
    · cases hv
      exact ready
    · rw [hview,post.pte]
      unfold protectAt viewOf
      simp only [hi,← hresult]

theorem numbered_part {vma : VirtMemoryAddr} (hnum : Numbered vma.pma.pageManager) :
    Numbered (protectVma vma a b flags).1.pma.pageManager ∧
      ∀ part ∈ (protectVma vma a b flags).2, Numbered part.pma.pageManager := by
  unfold protectVma
  split_ifs
  · refine ⟨numbered_left hnum b,fun part hp => ?_⟩
    rw [List.mem_singleton] at hp
    rw [hp]
    exact numbered_right hnum b
  · exact ⟨hnum,fun part hp => by cases hp⟩
  · refine ⟨numbered_left (numbered_left hnum b) a,fun part hp => ?_⟩
    rw [List.mem_cons,List.mem_singleton] at hp
    rcases hp with rfl | rfl
    · exact numbered_right hnum b
    · exact numbered_right (numbered_left hnum b) a
  · refine ⟨numbered_left hnum a,fun part hp => ?_⟩
    rw [List.mem_singleton] at hp
    rw [hp]
    exact numbered_right hnum a
  · exact ⟨hnum,fun part hp => by cases hp⟩

theorem insertAll_forall : ∀ (l : List VirtMemoryAddr) {areas : VmaRange},
      (∀ (k : ℕ) (vma : VirtMemoryAddr), areas[k]? = some vma → P k vma) →
      (∀ part ∈ l, P part.startVaddr part) →
      ∀ (k : ℕ) (vma : VirtMemoryAddr), (insertAll areas l)[k]? = some vma → P k vma := by
  intro l
  induction l with
  | nil => exact fun h _ => h
  | cons part l ih =>
    intro areas h hl
    exact ih (forall_insert h (hl part List.mem_cons_self))
      fun q hq => hl q (List.mem_cons_of_mem _ hq)

theorem protectAt_forall {i : ℕ}
    (h : ∀ (k : ℕ) (vma : VirtMemoryAddr), w.areas[k]? = some vma → P k vma)
    (hparts : ∀ vma, w.areas[i]? = some vma → P i (protectVma vma a b flags).1 ∧
      ∀ part ∈ (protectVma vma a b flags).2, P part.startVaddr part) :
    ∀ (k : ℕ) (vma : VirtMemoryAddr), (protectAt a b flags w i).areas[k]? = some vma → P k vma := by
  unfold protectAt
  cases hi : w.areas[i]? with
  | none => exact h
  | some vma =>
    obtain ⟨hstays,hnew⟩ := hparts vma hi
    exact insertAll_forall _ (forall_insert h hstays) hnew

theorem protectAt_numbered (hnum : AllNumbered w.areas) (i : ℕ) :
    AllNumbered (protectAt a b flags w i).areas :=
  protectAt_forall flags hnum fun vma hi => numbered_part flags (hnum i vma hi)

def RoundsModify (a b : ℕ) (flags : MapPermission) : View → List ℕ → Prop
  | _, [] => True
  | w, i :: is => (∀ vma, w.areas[i]? = some vma → ModifyReady vma a b w.pte) ∧
      RoundsModify a b flags (protectAt a b flags w i) is

theorem protectRounds_of_modify : ∀ (keys : List ℕ) (w : View), RoundsModify a b flags w keys →
    ProtectRounds a b flags w keys := by
  intro keys
  induction keys with
  | nil => exact fun _ _ => trivial
  | cons i keys ih => exact fun w h => ⟨fun vma hi => (h.1 vma hi).splits,ih _ h.2⟩

theorem protectRounds_space : ∀ (keys : List ℕ) (areas : VmaRange) (m : Machine),
    AllNumbered areas → Space m pt root K (fun p => h p + areasHeld areas p) ext →
    Holds (keys.foldlM (VmaRange.mprotectAt a b flags pt) areas) m
      (fun r m' => RoundsModify a b flags (viewOf areas m root) keys ∧
        Reaches m pt root K h ext
          (keys.foldl (protectAt a b flags) (viewOf areas m root)) r m')
      (fun _ _ => a ≤ b → ¬ RoundsModify a b flags (viewOf areas m root) keys) := by
  intro keys
  induction keys with
  | nil =>
    intro areas m _ s
    exact holds_pure ⟨trivial,rfl,s,UnmapStep.refl m pt K⟩
  | cons i keys ih =>
    intro areas m hnum s
    refine ((mprotectAt_space flags areas i hnum s).onError
      fun _ _ hn hab ready => hn hab ready.1).bind ?_
    rintro areas₁ m₁ ⟨hready,hview,s₁,hstep⟩
    have hnum₁ : AllNumbered areas₁ := by
      have hp := protectAt_numbered (a := a) (b := b) (w := viewOf areas m root) flags hnum i
      rw [← hview] at hp
      exact hp
    have rest := ih areas₁ m₁ hnum₁ s₁
    rw [hview] at rest
    refine rest.mono ?_ fun _ _ hn hab ready => hn hab ready.2
    rintro areas₂ m₂ ⟨hready₂,hview₂,s₂,hstep₂⟩
    exact ⟨⟨hready,hready₂⟩,hview₂,s₂,hstep.trans hstep₂⟩

theorem mprotect_space (areas : VmaRange) (hnum : AllNumbered areas)
    (s : Space m pt root K (fun p => h p + areasHeld areas p) ext) :
    Holds (VmaRange.mprotect areas a b flags pt) m
      (fun r m' => RoundsModify a b flags (viewOf areas m root) (overlapKeys areas a b) ∧
        Reaches m pt root K h ext (View.protect (viewOf areas m root) a b flags) r m')
      (fun _ _ => a ≤ b →
        ¬ RoundsModify a b flags (viewOf areas m root) (overlapKeys areas a b)) := by
  refine ((overlapLoop_holds a b areas.toList []).onError
    fun _ _ hn hab => (hn.2 hab).elim).bind ?_
  rintro _ _ ⟨rfl,rfl,-⟩
  exact protectRounds_space flags (overlapKeys areas a b) areas m hnum s

end Rounds

end DuckOs.SegmentProtect
