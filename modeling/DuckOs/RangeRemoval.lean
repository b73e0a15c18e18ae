import DuckOs.AddressChecks

namespace DuckOs.RangeRemoval
open ExecutionRules AddressModel PermissionFlags KernelMachine BootMachine PageModel
open VirtMemoryModel MemorySetModel
open FrameOwnership SegmentViews SegmentUnmap AreaUnmap SpaceOperations SyscallSteps
open UnmapRounds AddressChecks
open OrderedMaps

variable {areas : VmaRange} {va x k first last : ℕ} {vma vma' right : VirtMemoryAddr} {w : View}

def Within (vma : VirtMemoryAddr) (x : ℕ) : Prop := vma.startVaddr ≤ x ∧ x < vma.endVaddr

structure Cell where
  permission : MapPermission
  vmaType : VmaType
  mapType : MapType
  handler : Option PageFaultHandler
  page : Option Page
  entry : Option ℕ

def cellOf (vma : VirtMemoryAddr) (pte : ℕ → Option ℕ) (x : ℕ) : Cell :=
  ⟨vma.mapPermission, vma.vmaType, vma.mapType, vma.pageFaultHandler,
    vma.pma.pageManager[x / 4096]?, pte (x / 4096)⟩

/-- Some segment has the address, and this is what it has there. -/
def Finds (w : View) (x : ℕ) (cell : Cell) : Prop :=
  ∃ (k : ℕ) (vma : VirtMemoryAddr), w.areas[k]? = some vma ∧ Within vma x ∧
    cell = cellOf vma w.pte x

/-- Segments under their starts, made of whole pages, apart from each other, all resident. -/
structure Orderly (areas : VmaRange) : Prop where
  keyed : ∀ (k : ℕ) (vma : VirtMemoryAddr), areas[k]? = some vma → vma.startVaddr = k
  aligned : ∀ (k : ℕ) (vma : VirtMemoryAddr), areas[k]? = some vma →
    4096 ∣ vma.startVaddr ∧ 4096 ∣ vma.endVaddr
  apart : ∀ (k k' : ℕ) (vma vma' : VirtMemoryAddr), areas[k]? = some vma →
    areas[k']? = some vma' → ∀ x, Within vma x → Within vma' x → k = k'
  resident : FullyResident areas

/-- The checks of `unmap` pass, and no segment that has addresses lies inside the range. -/
def Removable (areas : VmaRange) (first last : ℕ) : Prop :=
  ∀ (k : ℕ) (vma : VirtMemoryAddr), areas[k]? = some vma → Overlaps vma first last →
    checkUserVa first = true ∧ checkUserVa last = true ∧ CutAccepted vma first last ∧
      (first ≤ vma.startVaddr → vma.endVaddr ≤ last → vma.endVaddr ≤ vma.startVaddr)

theorem Orderly.keysBelow (h : Orderly areas) : KeysBelow areas :=
  fun k vma hk => (h.keyed k vma hk).ge

section Cells

variable {a b : ℕ} {pte : ℕ → Option ℕ}

theorem cellOf_leftPart (hpos : 4096 ∣ a) (hx : x < a) :
    cellOf (leftPart vma a) pte x = cellOf vma pte x := by
  unfold cellOf leftPart
  rw [getElem?_carve,if_neg (by omega)]

theorem cellOf_rightPart (hend : 4096 ∣ vma.endVaddr) (hx : b ≤ x) (hlt : x < vma.endVaddr) :
    cellOf (rightPart vma b) pte x = cellOf vma pte x := by
  unfold cellOf rightPart
  rw [getElem?_slice,if_pos ⟨Nat.div_le_div_right hx,by omega⟩]

theorem within_emptied : Within (emptied vma) x ↔ Within vma x := by
  unfold emptied
  split
  · exact Iff.rfl
  · exact Iff.rfl

theorem cutVma_cells (x : ℕ) (pte : ℕ → Option ℕ) (ha : 4096 ∣ a) (hb : 4096 ∣ b)
    (hend : 4096 ∣ vma.endVaddr) (hab : a < b)
    (ho : Overlaps vma a b) (spared : a ≤ vma.startVaddr → vma.endVaddr ≤ b → ¬ Within vma x) :
    (∀ cell, (Within (cutVma vma a b).1 x ∧ cell = cellOf (cutVma vma a b).1 pte x) ∨
        (∃ right, (cutVma vma a b).2 = some right ∧ Within right x ∧ cell = cellOf right pte x) ↔
      (Within vma x ∧ cell = cellOf vma pte x) ∧ ¬ (a ≤ x ∧ x < b)) := by
  have hov := overlaps_iff.mp ho
  intro cell
  by_cases hl : a ≤ vma.startVaddr <;> by_cases hr : b < vma.endVaddr
  · rw [cutVma_left ho hl hr]
    have hcell : b ≤ x → x < vma.endVaddr →
        cellOf (rightPart vma b) pte x = cellOf vma pte x := cellOf_rightPart hend
    constructor
    · rintro (⟨⟨hx₁,hx₂⟩,rfl⟩ | ⟨right,hnone,-⟩)
      · change b ≤ x at hx₁
        exact ⟨⟨⟨by omega,hx₂⟩,hcell hx₁ hx₂⟩,by omega⟩
      · cases hnone
    · rintro ⟨⟨⟨hx₁,hx₂⟩,rfl⟩,hout⟩
      have hx : b ≤ x := by omega
      exact .inl ⟨⟨hx,hx₂⟩,(hcell hx hx₂).symm⟩
  · have hr' := not_lt.mp hr
    rw [cutVma_whole ho hl hr']
    constructor
    · rintro (⟨hx,-⟩ | ⟨right,hnone,-⟩)
      · exact (spared hl hr' (within_emptied.mp hx)).elim
      · cases hnone
    · rintro ⟨⟨hx,-⟩,-⟩
      exact (spared hl hr' hx).elim
  · have hl' := not_le.mp hl
    rw [cutVma_inside ho hl' hr]
    have hleft : x < a → cellOf (leftPart (leftPart vma b) a) pte x = cellOf vma pte x :=
      fun hx => (cellOf_leftPart ha hx).trans (cellOf_leftPart hb (hx.trans hab))
    have hright : b ≤ x → x < vma.endVaddr →
        cellOf (rightPart vma b) pte x = cellOf vma pte x := cellOf_rightPart hend
    constructor
    · rintro (⟨⟨hx₁,hx₂⟩,rfl⟩ | ⟨right,hsome,⟨hx₁,hx₂⟩,rfl⟩)
      · change vma.startVaddr ≤ x at hx₁
        change x < a at hx₂
        exact ⟨⟨⟨hx₁,by omega⟩,hleft hx₂⟩,by omega⟩
      · cases hsome
        change b ≤ x at hx₁
        exact ⟨⟨⟨by omega,hx₂⟩,hright hx₁ hx₂⟩,by omega⟩
    · rintro ⟨⟨⟨hx₁,hx₂⟩,rfl⟩,hout⟩
      by_cases hx : x < a
      · exact .inl ⟨⟨hx₁,hx⟩,(hleft hx).symm⟩
      · have hx' : b ≤ x := by omega
        exact .inr ⟨_,rfl,⟨hx',hx₂⟩,(hright hx' hx₂).symm⟩
  · have hl' := not_le.mp hl
    rw [cutVma_right ho hl' (not_lt.mp hr)]
    have hleft : x < a → cellOf (leftPart vma a) pte x = cellOf vma pte x := cellOf_leftPart ha
    constructor
    · rintro (⟨⟨hx₁,hx₂⟩,rfl⟩ | ⟨right,hnone,-⟩)
      · change vma.startVaddr ≤ x at hx₁
        change x < a at hx₂
        exact ⟨⟨⟨hx₁,by omega⟩,hleft hx₂⟩,by omega⟩
      · cases hnone
    · rintro ⟨⟨⟨hx₁,hx₂⟩,rfl⟩,hout⟩
      have hx : x < a := by omega
      exact .inl ⟨⟨hx₁,hx⟩,(hleft hx).symm⟩

end Cells

section Unmap

theorem pageDown_of_dvd (h : 4096 ∣ va) : pageDown va = va := by
  unfold pageDown
  omega

theorem pageUp_of_dvd (h : 4096 ∣ va) : pageUp va = va := by
  unfold pageUp
  omega

theorem unmap_pte_outside (keys : KeysBelow w.areas) (hne : first ≠ last) (hf : 4096 ∣ first)
    (hl : 4096 ∣ last) (hx : ¬ (first ≤ x ∧ x < last)) :
    (w.unmap first last).pte (x / 4096) = w.pte (x / 4096) := by
  rcases unmap_pte keys hne (x / 4096) with ⟨⟨k,vma,-,-,-,h₁,h₂⟩,-⟩ | ⟨-,hpte⟩
  · rw [pageDown_of_dvd hf] at h₁
    rw [pageUp_of_dvd hl] at h₂
    omega
  · exact hpte

theorem split_unique (h : Orderly w.areas) (hlt : first < last) {k' : ℕ} {right' : VirtMemoryAddr}
    (hk : w.areas[k]? = some vma) (hk' : w.areas[k']? = some vma')
    (hs : (cutVma vma first last).2 = some right) (hs' : (cutVma vma' first last).2 = some right') :
    k = k' := by
  obtain ⟨-,h₁,h₂,-⟩ := cutVma_split hs
  obtain ⟨-,h₁',h₂',-⟩ := cutVma_split hs'
  exact h.apart k k' vma vma' hk hk' first ⟨h₁.le,hlt.trans h₂⟩ ⟨h₁'.le,hlt.trans h₂'⟩

variable (h : Orderly w.areas) (hf : 4096 ∣ first) (hl : 4096 ∣ last) (hlt : first < last)

include h hf hl hlt

theorem unmap_right (hk : w.areas[k]? = some vma) (hs : (cutVma vma first last).2 = some right) :
    (w.unmap first last).areas[last]? = some right := by
  have hdown := pageDown_of_dvd hf
  have hup := pageUp_of_dvd hl
  have hlimit : (w.unmap first last).areas[pageUp last]? = some right := by
    refine unmap_limit_split h.keysBelow hlt.ne hk (cutVma_split hs).1 ?_ fun k' vma' hk' _ => ?_
    · rwa [hdown,hup]
    · rw [hdown,hup]
      cases hs' : (cutVma vma' first last).2 with
      | none => exact .inr rfl
      | some right' => exact .inl (split_unique h hlt hk' hk hs' hs)
  rwa [hup] at hlimit

theorem unmap_apart (hk : w.areas[k]? = some vma) (hx : Within vma x)
    (ho : ¬ Overlaps vma first last) : (w.unmap first last).areas[k]? = some vma := by
  by_cases hkl : k = last
  · have hdown := pageDown_of_dvd hf
    have hup := pageUp_of_dvd hl
    have hkept : (w.unmap first last).areas[pageUp last]? = w.areas[pageUp last]? := by
      refine unmap_limit_kept h.keysBelow hlt.ne fun k' vma' hk' _ => ?_
      rw [hdown,hup]
      cases hs : (cutVma vma' first last).2 with
      | none => rfl
      | some right =>
        obtain ⟨-,h₁,h₂,-⟩ := cutVma_split hs
        obtain ⟨hx₁,hx₂⟩ := hx
        have hstart := h.keyed k vma hk
        have hstart' := h.keyed k' vma' hk'
        have heq := h.apart k k' vma vma' hk hk' last ⟨by omega,by omega⟩ ⟨by omega,h₂⟩
        omega
    rw [hup] at hkept
    rw [hkl,hkept,← hkl,hk]
  · have hkl' : k ≠ pageUp last := by rwa [pageUp_of_dvd hl]
    rw [unmap_getElem? w hlt.ne hkl',hk,Option.map_some,if_neg ho]

theorem unmap_cut (hk : w.areas[k]? = some vma) (ho : Overlaps vma first last) :
    (w.unmap first last).areas[k]? = some (cutVma vma first last).1 := by
  have hkl : k ≠ pageUp last := by
    rw [pageUp_of_dvd hl]
    have hstart := h.keyed k vma hk
    have hov := overlaps_iff.mp ho
    omega
  rw [unmap_getElem? w hlt.ne hkl,hk,Option.map_some,if_pos ho,pageDown_of_dvd hf,
    pageUp_of_dvd hl]

theorem unmap_origin (hk : (w.unmap first last).areas[k]? = some vma') :
    ∃ (i : ℕ) (vma : VirtMemoryAddr), w.areas[i]? = some vma ∧
      ((¬ Overlaps vma first last ∧ vma' = vma) ∨ (Overlaps vma first last ∧
        (vma' = (cutVma vma first last).1 ∨ (cutVma vma first last).2 = some vma'))) := by
  by_cases hkl : k = last
  · have hup := pageUp_of_dvd hl
    have hlimit : (w.unmap first last).areas[pageUp last]? = some vma' := by
      rw [hup]
      rwa [hkl] at hk
    have horigin := unmap_limit h.keysBelow hlt.ne hlimit
    rw [pageDown_of_dvd hf,hup] at horigin
    rcases horigin with hold | ⟨i,vma,hvma,hs⟩
    · refine ⟨last,vma',hold,.inl ⟨fun ho => ?_,rfl⟩⟩
      have hstart := h.keyed last vma' hold
      have hov := overlaps_iff.mp ho
      omega
    · exact ⟨i,vma,hvma,.inr ⟨(cutVma_split hs).1,.inr hs⟩⟩
  · have hkl' : k ≠ pageUp last := by rwa [pageUp_of_dvd hl]
    rw [unmap_getElem? w hlt.ne hkl',Option.map_eq_some_iff] at hk
    obtain ⟨vma,hvma,rfl⟩ := hk
    refine ⟨k,vma,hvma,?_⟩
    by_cases ho : Overlaps vma first last
    · rw [if_pos ho,pageDown_of_dvd hf,pageUp_of_dvd hl]
      exact .inr ⟨ho,.inl rfl⟩
    · rw [if_neg ho]
      exact .inl ⟨ho,rfl⟩

theorem unmap_finds (spared : ∀ (k : ℕ) (vma : VirtMemoryAddr), w.areas[k]? = some vma →
    Overlaps vma first last → first ≤ vma.startVaddr → vma.endVaddr ≤ last →
      vma.endVaddr ≤ vma.startVaddr) (x : ℕ) (cell : Cell) :
    Finds (w.unmap first last) x cell ↔ Finds w x cell ∧ ¬ (first ≤ x ∧ x < last) := by
  have hcells : ∀ (k : ℕ) (vma : VirtMemoryAddr), w.areas[k]? = some vma →
      Overlaps vma first last → _ := fun k vma hk ho =>
    cutVma_cells x w.pte hf hl (h.aligned k vma hk).2 hlt ho fun h₁ h₂ hx => by
      have hempty := spared k vma hk ho h₁ h₂
      have hx₁ := hx.1
      have hx₂ := hx.2
      omega
  have hpte : ¬ (first ≤ x ∧ x < last) → ∀ vma, cellOf vma (w.unmap first last).pte x =
      cellOf vma w.pte x := by
    intro hx vma
    unfold cellOf
    rw [unmap_pte_outside h.keysBelow hlt.ne hf hl hx]
  constructor
  · rintro ⟨k,vma',hk,hx,rfl⟩
    obtain ⟨i,vma,hvma,⟨ho,rfl⟩ | ⟨ho,hpart⟩⟩ := unmap_origin h hf hl hlt hk
    · have hout : ¬ (first ≤ x ∧ x < last) := fun hc =>
        ho (overlaps_iff.mpr ⟨lt_of_le_of_lt hx.1 hc.2,lt_of_le_of_lt hc.1 hx.2⟩)
      exact ⟨⟨i,vma',hvma,hx,hpte hout vma'⟩,hout⟩
    · have hfound := (hcells i vma hvma ho (cellOf vma' w.pte x)).mp <| by
        rcases hpart with rfl | hs
        · exact .inl ⟨hx,rfl⟩
        · exact .inr ⟨vma',hs,hx,rfl⟩
      obtain ⟨⟨hin,hcell⟩,hout⟩ := hfound
      exact ⟨⟨i,vma,hvma,hin,(hpte hout vma').trans hcell⟩,hout⟩
  · rintro ⟨⟨k,vma,hvma,hx,rfl⟩,hout⟩
    by_cases ho : Overlaps vma first last
    · rcases (hcells k vma hvma ho _).mpr ⟨⟨hx,rfl⟩,hout⟩ with
        ⟨hin,hcell⟩ | ⟨right,hs,hin,hcell⟩
      · exact ⟨k,_,unmap_cut h hf hl hlt hvma ho,hin,hcell.trans (hpte hout _).symm⟩
      · exact ⟨last,right,unmap_right h hf hl hlt hvma hs,hin,hcell.trans (hpte hout _).symm⟩
    · exact ⟨k,vma,unmap_apart h hf hl hlt hvma hx ho,hx,(hpte hout vma).symm⟩

end Unmap

section Outcome

variable {root : ℕ} {K : ℕ → Prop} {ms : MemorySet} {m : Machine}

theorem unmap_view (own : Owned root K ms m) (first last : ℕ) :
    Holds (VmaRange.unmap ms.areas first last ms.pt) m
      (fun areas' m' => (viewOf ms.areas m root).UnmapReady first last ∧
        viewOf areas' m' root = (viewOf ms.areas m root).unmap first last)
      (fun _ _ => ¬ (viewOf ms.areas m root).UnmapReady first last) := by
  obtain ⟨ext,s⟩ := own.space
  have s' : Space m ms.pt root K (fun p => 0 + areasHeld ms.areas p) ext := by
    simpa only [Nat.zero_add] using s
  exact (unmap_space (h := fun _ => 0) ms.areas first last s').imp
    fun _ _ hr => ⟨hr.1,hr.2.view⟩

theorem removable_of_finds (h : Orderly w.areas) (hf : 4096 ∣ first) (hl : 4096 ∣ last)
    (hlt : first < last) (accepted : UnmapAccepted w.areas first last)
    (finds : ∀ x cell, Finds (w.unmap first last) x cell ↔
      Finds w x cell ∧ ¬ (first ≤ x ∧ x < last)) : Removable w.areas first last := by
  intro k vma hk ho
  have hchecks : checkUserVa first = true ∧ checkUserVa last = true ∧
      CutAccepted vma first last := by
    rcases accepted with heq | hnil | ⟨-,hall⟩
    · exact (hlt.ne heq).elim
    · have hmem := mem_toList.mpr hk
      rw [hnil] at hmem
      cases hmem
    · have hvma := hall k vma hk ho
      rwa [pageDown_of_dvd hf,pageUp_of_dvd hl] at hvma
  refine ⟨hchecks.1,hchecks.2.1,hchecks.2.2,fun h₁ h₂ => ?_⟩
  by_contra hc
  have hcut := unmap_cut h hf hl hlt hk ho
  rw [cutVma_whole ho h₁ h₂] at hcut
  have hstart : Within vma vma.startVaddr := ⟨le_rfl,not_le.mp hc⟩
  have hfound := (finds vma.startVaddr _).mp ⟨k,_,hcut,within_emptied.mpr hstart,rfl⟩
  exact hfound.2 ⟨h₁,lt_of_lt_of_le (not_le.mp hc) h₂⟩

theorem onlyPages_orderly (h : onlyPages areas = true) : Orderly areas := by
  refine ⟨fun k vma hk => ?_,fun k vma hk => ?_,fun k k' vma vma' hk hk' _ _ _ => ?_,
    onlyPages_resident h⟩
  · obtain ⟨hkey,hstart,-⟩ := onlyPages_segment h hk
    rw [hkey,hstart]
  · obtain ⟨-,hstart,hend,-⟩ := onlyPages_segment h hk
    rw [hstart,hend]
    decide
  · rw [(onlyPages_segment h hk).1,(onlyPages_segment h hk').1]

end Outcome

/-- `unmap` returns and takes exactly the range away, for the segments and all they hold,
exactly when its checks pass and no segment with addresses is covered by the range. -/
theorem unmap_removes_range_iff (root : ℕ) (K : ℕ → Prop) (ms : MemorySet) (m : Machine)
    (own : Owned root K ms m) (orderly : Orderly ms.areas) (first last : ℕ) (hf : 4096 ∣ first)
    (hl : 4096 ∣ last) (hlt : first < last) :
    (∃ areas' m', VmaRange.unmap ms.areas first last ms.pt m = .ok areas' m' ∧
      ∀ x cell, Finds (viewOf areas' m' root) x cell ↔
        Finds (viewOf ms.areas m root) x cell ∧ ¬ (first ≤ x ∧ x < last)) ↔
      Removable ms.areas first last := by
  have hready : (viewOf ms.areas m root).UnmapReady first last ↔
      UnmapAccepted ms.areas first last :=
    unmapReady_iff_accepted (w := viewOf ms.areas m root) orderly.keysBelow orderly.resident
  constructor
  · rintro ⟨areas',m',hrun,hfinds⟩
    obtain ⟨ready,hview⟩ := (unmap_view own first last).of_ok hrun
    rw [hview] at hfinds
    exact removable_of_finds orderly hf hl hlt (hready.mp ready) hfinds
  · intro hrem
    have accepted : UnmapAccepted ms.areas first last := by
      refine .inr (.inr ⟨hlt.le,fun k vma hk ho => ?_⟩)
      obtain ⟨h₁,h₂,h₃,-⟩ := hrem k vma hk ho
      rw [pageDown_of_dvd hf,pageUp_of_dvd hl]
      exact ⟨h₁,h₂,h₃⟩
    obtain ⟨areas',m',hrun⟩ := ((unmap_view own first last).returns_iff (fun _ _ h => h.1)
      fun _ _ h => h).mpr (hready.mpr accepted)
    have hview := ((unmap_view own first last).of_ok hrun).2
    refine ⟨areas',m',hrun,?_⟩
    rw [hview]
    exact unmap_finds (w := viewOf ms.areas m root) orderly hf hl hlt
      fun k vma hk ho => (hrem k vma hk ho).2.2.2

/-- The second of two pages is taken away. -/
theorem unmap_removes_second : ∃ (root : ℕ) (ms : MemorySet) (m : Machine)
    (areas' : VmaRange) (m' : Machine),
    Orderly ms.areas ∧ VmaRange.unmap ms.areas 0x11000 0x12000 ms.pt m = .ok areas' m' ∧
    ∀ x cell, Finds (viewOf areas' m' root) x cell ↔
      Finds (viewOf ms.areas m root) x cell ∧ ¬ (0x11000 ≤ x ∧ x < 0x12000) := by
  have computed : fromBoot 64 touchedPages (fun p _ => onlyPages p.vm.areas) = true := by
    decide +kernel
  obtain ⟨root,K,-,-,p,m,-,-,own,-,-,only⟩ :=
    fromBoot_elim (by decide) computed
  have orderly := onlyPages_orderly only
  have hiff := unmap_removes_range_iff root K p.vm m own orderly 0x11000 0x12000 (by decide)
    (by decide) (by decide)
  obtain ⟨areas',m',hrun,hfinds⟩ := hiff.mpr <| by
    intro k vma hk _
    obtain ⟨-,hstart,hend,-,-⟩ := onlyPages_segment only hk
    exact ⟨by decide,by decide,cutAccepted_of_le (by omega) (by omega) (by decide),
      fun hc => by omega⟩
  exact ⟨root,p.vm,m,areas',m',orderly,hrun,hfinds⟩

/-- Both pages are unmapped and their addresses still belong to a segment. -/
theorem unmap_keeps_covered_segment : ∃ ms m₁ p m areas' m',
    MemorySet.newUser (bootMachine 64) = .ok ms m₁ ∧
    Runs Call.exec (fun _ _ _ => True) ⟨ms, ∅⟩ m₁ p m ∧ Orderly p.vm.areas ∧
    VmaRange.unmap p.vm.areas 0x10000 0x12000 p.vm.pt m = .ok areas' m' ∧
    ∃ (k : ℕ) (vma : VirtMemoryAddr), areas'[k]? = some vma ∧ Within vma 0x10000 := by
  have computed : fromBoot 64 touchedPages (fun p m => onlyPages p.vm.areas &&
      returnsWith (VmaRange.unmap p.vm.areas 0x10000 0x12000 p.vm.pt) m fun areas' _ =>
        (areas'[0x10000]?).any fun vma => vma.startVaddr == 0x10000 && vma.endVaddr == 0x12000) =
          true := by
    decide +kernel
  obtain ⟨-,-,ms,m₁,p,m,created,run,-,-,-,computed⟩ :=
    fromBoot_elim (by decide) computed
  rw [Bool.and_eq_true] at computed
  obtain ⟨only,computed⟩ := computed
  obtain ⟨areas',m',hrun,computed⟩ := returnsWith_elim computed
  rw [Option.any_eq_true] at computed
  obtain ⟨vma,hvma,computed⟩ := computed
  rw [Bool.and_eq_true,beq_iff_eq,beq_iff_eq] at computed
  obtain ⟨hstart,hend⟩ := computed
  refine ⟨ms,m₁,p,m,areas',m',created,run,onlyPages_orderly only,hrun,0x10000,vma,hvma,
    hstart.le,?_⟩
  rw [hend]
  decide

end DuckOs.RangeRemoval
