import DuckOs.SegmentViews

namespace DuckOs.SegmentUnmap
open ExecutionRules AddressModel KernelMachine PageTableModel PageModel VirtMemoryModel Function
open FrameOwnership SegmentViews
open OrderedMaps

variable {maps : BTreeMap Page × BTreeMap Page} {vpn a b root : ℕ} {m m' : Machine} {pt : PageTable}
  {K : ℕ → Prop} {h ext : ℕ → ℕ}

section Checked

variable {x : Kernel ℕ} {va r : ℕ}

theorem checked_holds (h : x m = if checkUserVa va then .ok r m else .error .assertion m) :
    Holds x m (fun r' m' => r' = r ∧ m = m' ∧ checkUserVa va = true)
      (fun _ _ => checkUserVa va = false) := by
  cases hc : checkUserVa va with
  | false => rw [hc] at h; exact holds_error h rfl
  | true => rw [hc] at h; exact holds_ok h ⟨rfl,rfl,rfl⟩

theorem checked_bind {α : Type} {f : ℕ → Kernel α} {Q : α → Machine → Prop} {R : Prop}
    (h : x m = if checkUserVa va then .ok r m else .error .assertion m)
    (ready : R → checkUserVa va = true)
    (hf : checkUserVa va = true → Holds (f r) m Q fun _ _ => ¬ R) :
    Holds (x >>= f) m Q fun _ _ => ¬ R := by
  refine holds_bind_ite h hf fun hc hr => ?_
  rw [ready hr] at hc
  cases hc

theorem virtToVpn_holds (va : ℕ) :
    Holds (virtToVpn va : Kernel ℕ) m
      (fun r m' => r = va / 4096 ∧ m = m' ∧ checkUserVa va = true)
      (fun _ _ => checkUserVa va = false) :=
  checked_holds (virtToVpn_eq va m)

theorem alignDown_holds (va : ℕ) :
    Holds (alignDown va : Kernel ℕ) m
      (fun r m' => r = pageDown va ∧ m = m' ∧ checkUserVa va = true)
      (fun _ _ => checkUserVa va = false) :=
  checked_holds (alignDown_eq va m)

theorem alignUp_holds (va : ℕ) :
    Holds (alignUp va : Kernel ℕ) m
      (fun r m' => r = pageUp va ∧ m = m' ∧ checkUserVa va = true)
      (fun _ _ => checkUserVa va = false) :=
  checked_holds (alignUp_eq va m)

end Checked

theorem isOverlap_holds (vma : VirtMemoryAddr) (a b : ℕ) :
    Holds (vma.isOverlap a b) m
      (fun r m' => r = decide (Overlaps vma a b) ∧ m = m' ∧ a ≤ b) (fun _ _ => ¬ a ≤ b) := by
  unfold VirtMemoryAddr.isOverlap
  by_cases hab : a ≤ b
  · have hassert : (assertThat (decide (a ≤ b)) : Kernel Unit) m = .ok () m := by
      rw [assertThat_eq,decide_eq_true hab,if_pos rfl]
    unfold Holds
    rw [bind_ok hassert]
    refine ⟨?_,rfl,hab⟩
    by_cases ho : Overlaps vma a b
    · rw [decide_eq_true ho]
      unfold Overlaps at ho
      simpa using ho
    · rw [decide_eq_false ho]
      unfold Overlaps at ho
      simpa [Decidable.not_not] using ho
  · have hassert : (assertThat (decide (a ≤ b)) : Kernel Unit) m = .error .assertion m := by
      rw [assertThat_eq,decide_eq_false hab]
      rfl
    exact holds_error (bind_error hassert) hab

theorem movePage_some {page : Page} (hp : maps.1[vpn]? = some page) :
    PhysMemoryAddr.movePage maps vpn m =
      .ok (maps.1.erase vpn, maps.2.insert vpn page) m := by
  unfold PhysMemoryAddr.movePage
  rw [hp]
  rfl

theorem movePage_none (hp : maps.1[vpn]? = none) :
    PhysMemoryAddr.movePage maps vpn m = .error .unwrapNone m := by
  unfold PhysMemoryAddr.movePage
  rw [hp]
  rfl

theorem moveLoop_holds (pages : BTreeMap Page) (a : ℕ) : ∀ (n c : ℕ), a ≤ c →
    Holds ((List.range' c n).foldlM PhysMemoryAddr.movePage (carve pages a c, slice pages a c)) m
      (fun r m' => r = (carve pages a (c + n), slice pages a (c + n)) ∧ m = m' ∧
        ∀ v, c ≤ v → v < c + n → pages[v]? ≠ none)
      (fun _ _ => ∃ v, c ≤ v ∧ v < c + n ∧ pages[v]? = none) := by
  intro n
  induction n with
  | zero =>
    intro c _
    exact holds_pure ⟨rfl,rfl,fun v h h' => by omega⟩
  | succ n ih =>
    intro c hc
    rw [List.range'_succ,List.foldlM_cons]
    have hat : (carve pages a c)[c]? = pages[c]? := by
      rw [getElem?_carve,if_neg (by omega)]
    unfold Holds
    cases hp : pages[c]? with
    | none =>
      rw [bind_error (movePage_none (hat.trans hp))]
      exact ⟨c,le_refl c,by omega,hp⟩
    | some page =>
      rw [bind_ok (movePage_some (hat.trans hp)),erase_carve pages hc,insert_slice hc hp]
      have hsum : c + 1 + n = c + (n + 1) := by omega
      refine (ih (c + 1) (by omega)).mono ?_ ?_
      · rintro r m' ⟨hr,hm,hall⟩
        rw [hsum] at hr hall
        refine ⟨hr,hm,fun v hv hv' => ?_⟩
        by_cases hvc : v = c
        · rw [hvc,hp]
          exact fun hcontra => by cases hcontra
        · exact hall v (by omega) hv'
      · rintro e m' ⟨v,hv,hv',hnone⟩
        exact ⟨v,by omega,by omega,hnone⟩

theorem split_holds (vma : VirtMemoryAddr) (pos : ℕ) (hle : pos / 4096 ≤ vma.endVaddr / 4096) :
    Holds (vma.split pos) m
      (fun r m' => r = (leftPart vma pos, rightPart vma pos) ∧ m = m' ∧ SplitReady vma pos)
      (fun _ _ => ¬ SplitReady vma pos) := by
  refine Holds.bind (R := fun r m' => r = ((leftPart vma pos).pma, (rightPart vma pos).pma) ∧
    m' = m ∧ SplitReady vma pos) ?_ ?_
  · refine checked_bind (virtToVpn_eq pos m) SplitReady.cut fun hpos => ?_
    refine checked_bind (virtToVpn_eq vma.endVaddr m) SplitReady.limit fun hlimit => ?_
    have loop := moveLoop_holds (m := m) vma.pma.pageManager (pos / 4096)
      (vma.endVaddr / 4096 - pos / 4096) (pos / 4096) (le_refl _)
    have hsum : pos / 4096 + (vma.endVaddr / 4096 - pos / 4096) = vma.endVaddr / 4096 := by omega
    rw [carve_self,slice_self,hsum] at loop
    refine (loop.onError ?_).bind ?_
    · rintro e m' ⟨v,hv,hv',hnone⟩ hr
      exact hr.resident v hv hv' hnone
    rintro _ _ ⟨rfl,rfl,hall⟩
    refine checked_bind (virtToVpn_eq pos m) (fun _ => hpos) fun _ => ?_
    refine checked_bind (virtToVpn_eq pos m) (fun _ => hpos) fun _ => ?_
    rw [Nat.sub_self]
    exact ⟨rfl,rfl,hpos,hlimit,hall⟩
  · rintro _ _ ⟨rfl,rfl,hready⟩
    exact holds_pure ⟨rfl,rfl,hready⟩

section Remove

structure UnmapStep (m m' : Machine) (pt : PageTable) (K : ℕ → Prop) : Prop where
  rest : m' = { m with
    ram := m'.ram, strong := m'.strong, frameAllocator := m'.frameAllocator }
  data : ∀ g, ¬ TableOf pt K g → m'.ram g = m.ram g

theorem UnmapStep.refl (m : Machine) (pt : PageTable) (K : ℕ → Prop) : UnmapStep m m pt K :=
  ⟨rfl,fun _ _ => rfl⟩

theorem UnmapStep.trans {m₁ m₂ m₃ : Machine} (a : UnmapStep m₁ m₂ pt K)
    (b : UnmapStep m₂ m₃ pt K) : UnmapStep m₁ m₃ pt K := by
  refine ⟨?_,fun g hg => (b.data g hg).trans (a.data g hg)⟩
  rw [b.rest,a.rest]

theorem UnmapStep.ofHandles (s : HandleStep m m' root) : UnmapStep m m' pt K := by
  refine ⟨?_,fun g _ => congrFun s.ram g⟩
  rw [s.rest]

theorem UnmapStep.ofTables (s : TableWrite m m' pt K) : UnmapStep m m' pt K := by
  refine ⟨?_,s.data⟩
  rw [s.rest]

theorem popPmaPage_space (pma : PhysMemoryAddr) (vpn : ℕ)
    (s : Space m pt root K (fun p => h p + pagesHeld pma.pageManager p) ext) :
    Holds (pma.popPmaPage vpn) m
      (fun r m' => r = { pma with pageManager := pma.pageManager.erase vpn } ∧
        Space m' pt root K (fun p => h p + pagesHeld (pma.pageManager.erase vpn) p) ext ∧
        HandleStep m m' root)
      (Never Panic Machine) := by
  unfold PhysMemoryAddr.popPmaPage
  cases hp : pma.pageManager[vpn]? with
  | none =>
    rw [erase_of_none hp]
    exact holds_pure ⟨rfl,s,HandleStep.refl m root⟩
  | some page =>
    have s' : Space m pt root K
        (fun p => (h p + pagesHeld (pma.pageManager.erase vpn) p) + single page p) ext := by
      refine s.held_congr fun p => ?_
      have ht := total_erase (fun q => single q p) pma.pageManager vpn
      rw [weightAt_some hp] at ht
      unfold pagesHeld
      omega
    refine Holds.bind (arcDrop_space s') ?_
    rintro - m' ⟨done,hs⟩
    exact holds_pure ⟨rfl,done,hs⟩

def popVma (vma : VirtMemoryAddr) (vpn : ℕ) : VirtMemoryAddr :=
  match vma.mapType with
  | .framed => { vma with pma := { vma.pma with pageManager := vma.pma.pageManager.erase vpn } }
  | .direct => vma

theorem unmapPage_space (vma : VirtMemoryAddr) (hv : vpn < 2 ^ 52)
    (s : Space m pt root K (fun p => h p + vmaHeld vma p) ext) : Holds (vma.unmap pt vpn) m
      (fun r m' => r = popVma vma vpn ∧ checkUserVa (vpn * 4096) = true ∧
        Space m' pt root K (fun p => h p + vmaHeld (popVma vma vpn) p) ext ∧
        pteAt m' root = update (pteAt m root) vpn none ∧ UnmapStep m m' pt K)
      (fun _ _ => checkUserVa (vpn * 4096) = false) := by
  refine Holds.bind (R := fun pma m₁ => { vma with pma := pma } = popVma vma vpn ∧
    Space m₁ pt root K (fun p => h p + vmaHeld (popVma vma vpn) p) ext ∧
    HandleStep m m₁ root) ?_ ?_
  · unfold popVma VirtMemoryAddr.popFramed
    cases hm : vma.mapType with
    | framed =>
      refine (popPmaPage_space vma.pma vpn s).weaken.imp ?_
      rintro - m₁ ⟨rfl,s₁,hs⟩
      exact ⟨by simp only,s₁,hs⟩
    | direct =>
      refine holds_pure ⟨?_,s,HandleStep.refl m root⟩
      obtain ⟨pma,first,last,permission,kind,mapType,handler⟩ := vma
      cases hm
      rfl
  · rintro pma m₁ ⟨hpma,s₁,hs⟩
    refine Holds.bind ((ptUnmap_space s₁ hv)) ?_
    rintro - m₂ ⟨hc,s₂,hpte,hw⟩
    refine holds_pure ⟨hpma,hc,s₂,?_,?_⟩
    · rw [hpte,hs.pte]
    · exact (UnmapStep.ofHandles hs).trans (UnmapStep.ofTables hw)

def without (vma : VirtMemoryAddr) (a b : ℕ) : VirtMemoryAddr :=
  match vma.mapType with
  | .framed => { vma with pma := { vma.pma with pageManager := carve vma.pma.pageManager a b } }
  | .direct => vma

theorem without_self (vma : VirtMemoryAddr) (a : ℕ) : without vma a a = vma := by
  unfold without
  split
  · rw [carve_self]
  · rfl

theorem popVma_without (vma : VirtMemoryAddr) {c : ℕ} (hc : a ≤ c) :
    popVma (without vma a c) c = without vma a (c + 1) := by
  cases hm : vma.mapType with
  | framed => simp only [popVma,without,hm,erase_carve _ hc]
  | direct => simp only [popVma,without,hm]

theorem emptied_eq (vma : VirtMemoryAddr) :
    emptied vma = without vma (vma.startVaddr / 4096) (vma.endVaddr / 4096) := by
  cases hm : vma.mapType <;> simp only [emptied,without,hm]

theorem removeLoop_space (vma : VirtMemoryAddr) (a : ℕ) : ∀ (n c : ℕ) (m : Machine), a ≤ c →
    c + n ≤ 2 ^ 52 → Space m pt root K (fun p => h p + vmaHeld (without vma a c) p) ext →
    Holds ((List.range' c n).foldlM (fun s vpn => s.unmap pt vpn) (without vma a c)) m
      (fun r m' => r = without vma a (c + n) ∧
        Space m' pt root K (fun p => h p + vmaHeld (without vma a (c + n)) p) ext ∧
        pteAt m' root = clearPages (pteAt m root) c (c + n) ∧ UnmapStep m m' pt K ∧
        ∀ v, c ≤ v → v < c + n → checkUserVa (v * 4096) = true)
      (fun _ _ => ∃ v, c ≤ v ∧ v < c + n ∧ checkUserVa (v * 4096) = false) := by
  intro n
  induction n with
  | zero =>
    intro c m _ _ s
    refine holds_pure ⟨rfl,s,?_,UnmapStep.refl m pt K,fun v h h' => by omega⟩
    funext v
    rw [clearPages,if_neg (by omega)]
  | succ n ih =>
    intro c m hc hb s
    have hsum : c + 1 + n = c + (n + 1) := by omega
    refine ((unmapPage_space (without vma a c) (by omega) s).onError
      fun _ _ hf => ⟨c,le_refl c,by omega,hf⟩).bind ?_
    rintro - m₁ ⟨rfl,hcheck,s₁,hpte,hstep⟩
    rw [popVma_without vma hc] at s₁ ⊢
    refine (ih (c + 1) m₁ (by omega) (by omega) s₁).mono ?_ ?_
    · rintro r m₂ ⟨hr,s₂,hpte₂,hstep₂,hall⟩
      rw [hsum] at hr s₂ hpte₂ hall
      refine ⟨hr,s₂,?_,hstep.trans hstep₂,fun v hv hv' => ?_⟩
      · funext v
        rw [hpte₂,hpte]
        unfold clearPages
        by_cases hvc : v = c
        · rw [if_neg (by omega),if_pos (by omega),hvc,update_self]
        · rw [update_of_ne hvc]
          by_cases hr : c ≤ v ∧ v < c + (n + 1)
          · rw [if_pos hr,if_pos (by omega)]
          · rw [if_neg hr,if_neg (by omega)]
      · by_cases hvc : v = c
        · rw [hvc]
          exact hcheck
        · exact hall v (by omega) hv'
    · rintro e m₂ ⟨v,hv,hv',hf⟩
      exact ⟨v,by omega,by omega,hf⟩

theorem checkUserVa_page_lt {va : ℕ} (hc : checkUserVa va = true) : va / 4096 < 2 ^ 52 := by
  have := checkUserVa_lt hc
  omega

theorem remove_space (vma : VirtMemoryAddr)
    (s : Space m pt root K (fun p => h p + vmaHeld vma p) ext) :
    Holds (vma.remove pt) m
      (fun r m' => r = emptied vma ∧
        Space m' pt root K (fun p => h p + vmaHeld (emptied vma) p) ext ∧
        pteAt m' root = clearPages (pteAt m root) (vma.startVaddr / 4096) (vma.endVaddr / 4096) ∧
        UnmapStep m m' pt K ∧ RemoveReady vma)
      (fun _ _ => ¬ RemoveReady vma) := by
  refine checked_bind (virtToVpn_eq vma.startVaddr m) RemoveReady.first fun hfirst => ?_
  refine checked_bind (virtToVpn_eq vma.endVaddr m) RemoveReady.limit fun hlimit => ?_
  have hlt := checkUserVa_page_lt hlimit
  by_cases hle : vma.startVaddr / 4096 ≤ vma.endVaddr / 4096
  · have hsum : vma.startVaddr / 4096 + (vma.endVaddr / 4096 - vma.startVaddr / 4096) =
        vma.endVaddr / 4096 := by omega
    have s₀ := s
    rw [← without_self vma (vma.startVaddr / 4096)] at s₀
    have loop := removeLoop_space vma (vma.startVaddr / 4096)
      (vma.endVaddr / 4096 - vma.startVaddr / 4096) (vma.startVaddr / 4096) m (le_refl _)
      (by omega) s₀
    rw [without_self,hsum,← emptied_eq] at loop
    refine loop.mono ?_ ?_
    · rintro r m' ⟨hr,s',hpte,hstep,hall⟩
      exact ⟨hr,s',hpte,hstep,hfirst,hlimit,hall⟩
    · rintro e m' ⟨v,hv,hv',hf⟩ hr
      rw [hr.pages v hv hv'] at hf
      cases hf
  · -- an inverted range has no pages
    have hzero : vma.endVaddr / 4096 - vma.startVaddr / 4096 = 0 := by omega
    have hempty : emptied vma = vma := by
      rw [emptied_eq]
      unfold without
      split
      · have hc : carve vma.pma.pageManager (vma.startVaddr / 4096) (vma.endVaddr / 4096) =
            vma.pma.pageManager := by
          apply Std.ExtTreeMap.ext_getElem?
          intro k
          rw [getElem?_carve,if_neg (by omega)]
        rw [hc]
      · rfl
    rw [hzero,hempty]
    refine holds_pure ⟨rfl,s,?_,UnmapStep.refl m pt K,hfirst,hlimit,fun v hv hv' => by omega⟩
    funext v
    rw [clearPages,if_neg (by omega)]

theorem dropVma_space (vma : VirtMemoryAddr)
    (s : Space m pt root K (fun p => h p + vmaHeld vma p) ext) :
    Holds (dropVma vma) m
      (fun _ m' => Space m' pt root K h ext ∧ pteAt m' root = pteAt m root ∧ UnmapStep m m' pt K)
      (Never Panic Machine) :=
  (dropPages_space vma.pma.pageManager s).imp fun _ _ r => ⟨r.1,r.2.pte,UnmapStep.ofHandles r.2⟩

end Remove

section Shapes

def splitOff : UnmapOverlap → Option VirtMemoryAddr
  | .split right => some right
  | _ => none

def cutHeld (r : VirtMemoryAddr × Option VirtMemoryAddr) (p : ℕ) : ℕ :=
  vmaHeld r.1 p + r.2.elim 0 fun right => vmaHeld right p

structure CutPost (m : Machine) (pt : PageTable) (root : ℕ) (K : ℕ → Prop) (h ext : ℕ → ℕ)
    (vma : VirtMemoryAddr) (a b : ℕ) (r : VirtMemoryAddr × UnmapOverlap) (m' : Machine) :
    Prop where
  ready : CutReady vma a b
  result : (r.1, splitOff r.2) = cutVma vma a b
  space : Space m' pt root K (fun p => h p + cutHeld (cutVma vma a b) p) ext
  pte : ∀ v, pteAt m' root v = if Cleared vma a b v then none else pteAt m root v
  step : UnmapStep m m' pt K

theorem clearPages_cleared {vma : VirtMemoryAddr} {x y : ℕ} (ho : Overlaps vma a b)
    (hx : x = max a vma.startVaddr) (hy : y = min b vma.endVaddr) (f : ℕ → Option ℕ) (v : ℕ) :
    clearPages f (x / 4096) (y / 4096) v = if Cleared vma a b v then none else f v := by
  subst hx hy
  unfold clearPages
  by_cases hv : max a vma.startVaddr / 4096 ≤ v ∧ v < min b vma.endVaddr / 4096
  · rw [if_pos hv,if_pos (show Cleared vma a b v from ⟨ho,hv⟩)]
  · rw [if_neg hv,if_neg fun hc : Cleared vma a b v => hv hc.2]

theorem overlaps_iff {vma : VirtMemoryAddr} :
    Overlaps vma a b ↔ vma.startVaddr < b ∧ a < vma.endVaddr := by
  rw [Overlaps,not_or,not_le,not_le]

section ShapeEquations

variable {vma : VirtMemoryAddr}

theorem cutVma_left (ho : Overlaps vma a b) (ha : a ≤ vma.startVaddr) (hb : b < vma.endVaddr) :
    cutVma vma a b = (rightPart vma b, none) := by
  rw [cutVma,if_neg (not_not.mpr ho),if_pos ha,if_pos hb]

theorem cutVma_whole (ho : Overlaps vma a b) (ha : a ≤ vma.startVaddr) (hb : vma.endVaddr ≤ b) :
    cutVma vma a b = (emptied vma, none) := by
  rw [cutVma,if_neg (not_not.mpr ho),if_pos ha,if_neg (not_lt.mpr hb)]

theorem cutVma_inside (ho : Overlaps vma a b) (ha : vma.startVaddr < a) (hb : b < vma.endVaddr) :
    cutVma vma a b = (leftPart (leftPart vma b) a, some (rightPart vma b)) := by
  rw [cutVma,if_neg (not_not.mpr ho),if_neg (not_le.mpr ha),if_pos hb]

theorem cutVma_right (ho : Overlaps vma a b) (ha : vma.startVaddr < a) (hb : vma.endVaddr ≤ b) :
    cutVma vma a b = (leftPart vma a, none) := by
  rw [cutVma,if_neg (not_not.mpr ho),if_neg (not_le.mpr ha),if_neg (not_lt.mpr hb)]

theorem cutVma_apart (ho : ¬ Overlaps vma a b) : cutVma vma a b = (vma, none) := by
  rw [cutVma,if_pos ho]

theorem cutReady_left (ho : Overlaps vma a b) (ha : a ≤ vma.startVaddr) (hb : b < vma.endVaddr) :
    CutReady vma a b ↔ SplitReady vma b ∧ RemoveReady (leftPart vma b) := by
  rw [CutReady,if_pos ha,if_pos hb]
  exact ⟨fun hr => hr ho,fun hr _ => hr⟩

theorem cutReady_whole (ho : Overlaps vma a b) (ha : a ≤ vma.startVaddr)
    (hb : vma.endVaddr ≤ b) : CutReady vma a b ↔ RemoveReady vma := by
  rw [CutReady,if_pos ha,if_neg (not_lt.mpr hb)]
  exact ⟨fun hr => hr ho,fun hr _ => hr⟩

theorem cutReady_inside (ho : Overlaps vma a b) (ha : vma.startVaddr < a) (hb : b < vma.endVaddr) :
    CutReady vma a b ↔ SplitReady vma b ∧ SplitReady (leftPart vma b) a ∧
      RemoveReady (rightPart (leftPart vma b) a) := by
  rw [CutReady,if_neg (not_le.mpr ha),if_pos hb]
  exact ⟨fun hr => hr ho,fun hr _ => hr⟩

theorem cutReady_right (ho : Overlaps vma a b) (ha : vma.startVaddr < a) (hb : vma.endVaddr ≤ b) :
    CutReady vma a b ↔ SplitReady vma a ∧ RemoveReady (rightPart vma a) := by
  rw [CutReady,if_neg (not_le.mpr ha),if_neg (not_lt.mpr hb)]
  exact ⟨fun hr => hr ho,fun hr _ => hr⟩

end ShapeEquations

variable (vma : VirtMemoryAddr) (s : Space m pt root K (fun p => h p + vmaHeld vma p) ext)

include s in
section

variable (ho : Overlaps vma a b)
include ho

/-- What lies between the cuts is removed and dropped. -/
theorem cutPart_space {gone : VirtMemoryAddr}
    {r : VirtMemoryAddr × UnmapOverlap} (hresult : (r.1, splitOff r.2) = cutVma vma a b)
    (hheld : ∀ p, vmaHeld vma p = cutHeld (r.1, splitOff r.2) p + vmaHeld gone p)
    (hfirst : gone.startVaddr = max a vma.startVaddr) (hlast : gone.endVaddr = min b vma.endVaddr)
    (ready : CutReady vma a b ↔ RemoveReady gone) :
    Holds (do
        let left ← gone.remove pt
        dropVma left
        pure r) m
      (CutPost m pt root K h ext vma a b) (fun _ _ => ¬ CutReady vma a b) := by
  have s' : Space m pt root K
    (fun p => (h p + cutHeld (cutVma vma a b) p) + vmaHeld gone p) ext := by
    refine s.held_congr fun p => ?_
    rw [hheld p,hresult]
    omega
  refine ((remove_space gone s').onError fun _ _ hf hr => hf (ready.mp hr)).bind ?_
  rintro - m₁ ⟨rfl,s₁,hpte,hstep,hremove⟩
  refine (dropVma_space (emptied gone) s₁).weaken.bind ?_
  rintro - m₂ ⟨s₂,hpte₂,hstep₂⟩
  refine holds_pure ⟨ready.mpr hremove,hresult,s₂,fun v => ?_,hstep.trans hstep₂⟩
  rw [hpte₂,hpte]
  exact clearPages_cleared ho hfirst hlast _ v

include s in
theorem cutLeft_space (ha : a ≤ vma.startVaddr) (hb : b < vma.endVaddr) : Holds (do
        let parts ← vma.split b
        let left ← parts.1.remove pt
        dropVma left
        pure (parts.2, UnmapOverlap.shrink)) m
      (CutPost m pt root K h ext vma a b) (fun _ _ => ¬ CutReady vma a b) := by
  have ready := cutReady_left ho ha hb
  refine ((split_holds vma b (Nat.div_le_div_right hb.le)).onError fun _ _ hf hr =>
    hf (ready.mp hr).1).bind ?_
  rintro _ _ ⟨rfl,rfl,hsplit⟩
  refine cutPart_space vma s ho (cutVma_left ho ha hb).symm (fun p => ?_) (max_eq_right ha).symm
    (min_eq_left hb.le).symm (ready.trans (and_iff_right hsplit))
  rw [vmaHeld_parts vma b p]
  exact Nat.add_comm _ _

include s in
theorem cutWhole_space (ha : a ≤ vma.startVaddr) (hb : vma.endVaddr ≤ b) : Holds (do
        let vma ← vma.remove pt
        pure (vma, UnmapOverlap.removed)) m
      (CutPost m pt root K h ext vma a b) (fun _ _ => ¬ CutReady vma a b) := by
  have ready := cutReady_whole ho ha hb
  refine ((remove_space vma s).onError fun _ _ hf hr => hf (ready.mp hr)).bind ?_
  rintro - m₁ ⟨rfl,s₁,hpte,hstep,hremove⟩
  refine holds_pure ⟨ready.mpr hremove,(cutVma_whole ho ha hb).symm,?_,fun v => ?_,hstep⟩
  · rw [cutVma_whole ho ha hb]
    exact s₁
  · rw [hpte]
    exact clearPages_cleared ho (max_eq_right ha).symm (min_eq_right hb).symm _ v

include s in
theorem cutInside_space (hab : a ≤ b) (ha : vma.startVaddr < a) (hb : b < vma.endVaddr) :
    Holds (do
        let parts ← vma.split b
        let inner ← parts.1.split a
        let gone ← inner.2.remove pt
        dropVma gone
        pure (inner.1, UnmapOverlap.split parts.2)) m
      (CutPost m pt root K h ext vma a b) (fun _ _ => ¬ CutReady vma a b) := by
  have ready := cutReady_inside ho ha hb
  refine ((split_holds vma b (Nat.div_le_div_right hb.le)).onError fun _ _ hf hr =>
    hf (ready.mp hr).1).bind ?_
  rintro _ _ ⟨rfl,rfl,hsplit⟩
  refine ((split_holds (leftPart vma b) a (Nat.div_le_div_right hab)).onError
    fun _ _ hf hr => hf (ready.mp hr).2.1).bind ?_
  rintro _ _ ⟨rfl,rfl,hinner⟩
  refine cutPart_space vma s ho (cutVma_inside ho ha hb).symm (fun p => ?_) (max_eq_left ha.le).symm
    (min_eq_left hb.le).symm (ready.trans ((and_iff_right hsplit).trans (and_iff_right hinner)))
  change _ = vmaHeld (leftPart (leftPart vma b) a) p + vmaHeld (rightPart vma b) p +
    vmaHeld (rightPart (leftPart vma b) a) p
  rw [vmaHeld_parts vma b p,vmaHeld_parts (leftPart vma b) a p]
  omega

include s in
theorem cutRight_space (ha : vma.startVaddr < a) (hb : vma.endVaddr ≤ b) : Holds (do
        let parts ← vma.split a
        let gone ← parts.2.remove pt
        dropVma gone
        pure (parts.1, UnmapOverlap.shrink)) m
      (CutPost m pt root K h ext vma a b) (fun _ _ => ¬ CutReady vma a b) := by
  have ready := cutReady_right ho ha hb
  have hlt := (overlaps_iff.mp ho).2
  refine ((split_holds vma a (Nat.div_le_div_right hlt.le)).onError fun _ _ hf hr =>
    hf (ready.mp hr).1).bind ?_
  rintro _ _ ⟨rfl,rfl,hsplit⟩
  exact cutPart_space vma s ho (cutVma_right ho ha hb).symm (vmaHeld_parts vma a)
    (max_eq_left ha.le).symm (min_eq_right hb).symm (ready.trans (and_iff_right hsplit))

end

include s in
theorem unmapIfOverlap_space {first last : ℕ} (hle : first ≤ last) :
    Holds (vma.unmapIfOverlap first last pt) m
      (fun r m' => checkUserVa first = true ∧ checkUserVa last = true ∧
        CutPost m pt root K h ext vma (pageDown first) (pageUp last) r m')
      (fun _ _ => ¬ (checkUserVa first = true ∧ checkUserVa last = true ∧
        CutReady vma (pageDown first) (pageUp last))) := by
  refine checked_bind (r := pageDown first) (alignDown_eq first m) And.left fun hfirst => ?_
  refine checked_bind (r := pageUp last) (alignUp_eq last m) (fun hr => hr.2.1) fun hlast => ?_
  have hab : pageDown first ≤ pageUp last := by
    unfold pageDown pageUp
    omega
  generalize pageDown first = a at *
  generalize pageUp last = b at *
  refine ((isOverlap_holds vma a b).onError fun _ _ hf => (hf hab).elim).bind ?_
  rintro _ _ ⟨rfl,rfl,-⟩
  suffices cut : Holds _ m (CutPost m pt root K h ext vma a b) (fun _ _ => ¬ CutReady vma a b) from
    cut.mono (fun _ _ post => ⟨hfirst,hlast,post⟩) fun _ _ hf hr => hf hr.2.2
  by_cases ho : Overlaps vma a b
  · rw [decide_eq_true ho,Bool.not_true,if_neg Bool.false_ne_true]
    by_cases ha : a ≤ vma.startVaddr
    · rw [if_pos ha]
      by_cases hb : b < vma.endVaddr
      · rw [if_pos hb]
        exact cutLeft_space vma s ho ha hb
      · rw [if_neg hb]
        exact cutWhole_space vma s ho ha (not_lt.mp hb)
    · rw [if_neg ha]
      by_cases hb : b < vma.endVaddr
      · rw [if_pos hb]
        exact cutInside_space vma s ho hab (not_le.mp ha) hb
      · rw [if_neg hb]
        exact cutRight_space vma s ho (not_le.mp ha) (not_lt.mp hb)
  · rw [decide_eq_false ho,Bool.not_false,if_pos rfl]
    refine holds_pure ⟨fun hc => (ho hc).elim,(cutVma_apart ho).symm,?_,fun v => ?_,
      UnmapStep.refl m pt K⟩
    · rw [cutVma_apart ho]
      exact s
    · rw [if_neg fun hc : Cleared vma a b v => ho hc.1]

end Shapes

end DuckOs.SegmentUnmap
