import DuckOs.ProtectedRanges

namespace DuckOs.OverlapUnmaps
open ExecutionRules AddressModel KernelMachine PageTableModel PageModel
open VirtMemoryModel MemorySetModel MemorySyscalls FrameOwnership SegmentViews SegmentUnmap
open SpaceOperations SyscallSteps UnmapRounds AddressChecks BootMachine
open OrderedMaps

variable {v a b : ℕ} {piece first vma : VirtMemoryAddr} {P : ℕ → Prop}

section Pages

def HasPage (vma : VirtMemoryAddr) (v : ℕ) : Prop :=
  vma.startVaddr / 4096 ≤ v ∧ v < vma.endVaddr / 4096

def FullyPopulated (vma : VirtMemoryAddr) : Prop :=
  ∀ v : ℕ, vma.pma.pageManager[v]? ≠ none ↔ HasPage vma v

def Names (pte : ℕ → Option ℕ) (v : ℕ) (page : Page) : Prop :=
  ∃ word, pte v = some word ∧ PageTableEntry.ppn word = page.ppn

def AgreesWith (vma : VirtMemoryAddr) (pte : ℕ → Option ℕ) : Prop :=
  ∀ (v : ℕ) (page : Page), vma.pma.pageManager[v]? = some page → Names pte v page

def pieces (r : VirtMemoryAddr × UnmapOverlap) : List VirtMemoryAddr :=
  r.1 :: (splitOff r.2).toList

def holds (piece : VirtMemoryAddr) (v : ℕ) : Bool := piece.pma.pageManager[v]?.isSome

def holders (r : VirtMemoryAddr × UnmapOverlap) (v : ℕ) : List VirtMemoryAddr :=
  (pieces r).filter fun piece => holds piece v

/-- The pages of the segment in `[a, b)` are gone with their entries; every other page of the
segment has one holder, whose range has it and which has it in the frame that its entry
names. -/
structure Unmapped (vma : VirtMemoryAddr) (a b : ℕ) (pte pte' : ℕ → Option ℕ)
    (r : VirtMemoryAddr × UnmapOverlap) : Prop where
  cleared : ∀ v, HasPage vma v → a / 4096 ≤ v → v < b / 4096 → pte' v = none ∧ holders r v = []
  others : ∀ v, ¬ (HasPage vma v ∧ a / 4096 ≤ v ∧ v < b / 4096) → pte' v = pte v
  held : ∀ v, HasPage vma v → ¬ (a / 4096 ≤ v ∧ v < b / 4096) → ∃ piece page,
    holders r v = [piece] ∧ HasPage piece v ∧ piece.pma.pageManager[v]? = some page ∧
      vma.pma.pageManager[v]? = some page ∧ Names pte' v page
  inside : ∀ piece ∈ pieces r, ∀ v : ℕ, piece.pma.pageManager[v]? ≠ none → HasPage piece v

theorem holds_of_none (h : vma.pma.pageManager[v]? = none) : holds vma v = false := by
  rw [holds,h]
  rfl

theorem holds_of_some {page : Page} (h : vma.pma.pageManager[v]? = some page) :
    holds vma v = true := by
  rw [holds,h]
  rfl

theorem cleared_iff (v : ℕ) :
    Cleared vma a b v ↔ HasPage vma v ∧ a / 4096 ≤ v ∧ v < b / 4096 := by
  unfold Cleared HasPage
  rw [overlaps_iff]
  omega

def Takes (vma piece : VirtMemoryAddr) (test : ℕ → Prop) : Prop :=
  ∀ v : ℕ, (test v → piece.pma.pageManager[v]? = vma.pma.pageManager[v]?) ∧
    (¬ test v → piece.pma.pageManager[v]? = none)

theorem takes_leftPart (populated : FullyPopulated vma) (pos : ℕ) :
    Takes vma (leftPart vma pos) fun v => HasPage vma v ∧ v < pos / 4096 := by
  intro v
  change (_ → (carve _ _ _)[v]? = _) ∧ (_ → (carve _ _ _)[v]? = _)
  rw [getElem?_carve]
  have hv := populated v
  constructor
  · intro h
    rw [if_neg (by omega)]
  · intro h
    split
    · rfl
    · by_contra hc
      have := hv.mp hc
      unfold HasPage at this h
      omega

theorem takes_rightPart (pos : ℕ) :
    Takes vma (rightPart vma pos) fun v => pos / 4096 ≤ v ∧ v < vma.endVaddr / 4096 := by
  intro v
  change (_ → (slice _ _ _)[v]? = _) ∧ (_ → (slice _ _ _)[v]? = _)
  rw [getElem?_slice]
  exact ⟨fun h => if_pos h,fun h => if_neg h⟩

theorem Takes.page {test : ℕ → Prop} (h : Takes vma piece test) {page : Page}
    (hv : vma.pma.pageManager[v]? = some page) (ht : test v) :
    piece.pma.pageManager[v]? = some page := by
  rw [(h v).1 ht,hv]

theorem Takes.test {test : ℕ → Prop} (h : Takes vma piece test)
    (hv : piece.pma.pageManager[v]? ≠ none) : test v := by
  by_contra hc
  exact hv ((h v).2 hc)

end Pages

section Outcomes

variable {pte pte' : ℕ → Option ℕ} {r : VirtMemoryAddr × UnmapOverlap}

def Remains (vma : VirtMemoryAddr) (a b v : ℕ) : Prop :=
  HasPage vma v ∧ ¬ (a / 4096 ≤ v ∧ v < b / 4096)

variable (populated : FullyPopulated vma) (agrees : AgreesWith vma pte)
  (entries : ∀ v, pte' v = if Cleared vma a b v then none else pte v)

include entries in
theorem entries_cleared (v : ℕ) :
    (HasPage vma v → a / 4096 ≤ v → v < b / 4096 → pte' v = none) ∧
      (¬ (HasPage vma v ∧ a / 4096 ≤ v ∧ v < b / 4096) → pte' v = pte v) := by
  rw [entries v]
  constructor
  · intro h₁ h₂ h₃
    exact if_pos ((cleared_iff v).mpr ⟨h₁,h₂,h₃⟩)
  · intro h
    exact if_neg fun hc => h ((cleared_iff v).mp hc)

include populated agrees entries in
theorem remains_named (hv : Remains vma a b v) :
    ∃ page, vma.pma.pageManager[v]? = some page ∧ Names pte' v page := by
  obtain ⟨page,hpage⟩ := Option.ne_none_iff_exists'.mp ((populated v).mpr hv.1)
  obtain ⟨word,hword,hframe⟩ := agrees v page hpage
  refine ⟨page,hpage,word,?_,hframe⟩
  rw [(entries_cleared entries v).2 fun hc => hv.2 hc.2,hword]

include populated agrees entries in
theorem unmapped_one (hp : pieces r = [first]) (takes : Takes vma first P)
    (hP : ∀ v, P v ↔ Remains vma a b v) (hrange : ∀ v, P v → HasPage first v) :
    Unmapped vma a b pte pte' r := by
  refine ⟨fun v h₁ h₂ h₃ => ⟨(entries_cleared entries v).1 h₁ h₂ h₃,?_⟩,
    fun v => (entries_cleared entries v).2,fun v h₁ h₂ => ?_,?_⟩
  · have hnone : first.pma.pageManager[v]? = none :=
      (takes v).2 fun hc => ((hP v).mp hc).2 ⟨h₂,h₃⟩
    simp [holders,hp,holds_of_none hnone]
  · obtain ⟨page,hpage,named⟩ := remains_named populated agrees entries ⟨h₁,h₂⟩
    have ht := (hP v).mpr ⟨h₁,h₂⟩
    have hfirst := takes.page hpage ht
    exact ⟨first,page,by simp [holders,hp,holds_of_some hfirst],hrange v ht,hfirst,hpage,named⟩
  · intro piece hpiece v hv
    rw [hp,List.mem_singleton] at hpiece
    subst hpiece
    exact hrange v (takes.test hv)

include populated agrees entries in
theorem unmapped_two {right : VirtMemoryAddr} {Q : ℕ → Prop} (hp : pieces r = [first, right])
    (takes : Takes vma first P) (takes' : Takes vma right Q)
    (hPQ : ∀ v, P v ∨ Q v ↔ Remains vma a b v) (alone : ∀ v, P v → ¬ Q v)
    (hrange : ∀ v, P v → HasPage first v) (hrange' : ∀ v, Q v → HasPage right v) :
    Unmapped vma a b pte pte' r := by
  refine ⟨fun v h₁ h₂ h₃ => ⟨(entries_cleared entries v).1 h₁ h₂ h₃,?_⟩,
    fun v => (entries_cleared entries v).2,fun v h₁ h₂ => ?_,?_⟩
  · have hnone : first.pma.pageManager[v]? = none :=
      (takes v).2 fun hc => ((hPQ v).mp (.inl hc)).2 ⟨h₂,h₃⟩
    have hnone' : right.pma.pageManager[v]? = none :=
      (takes' v).2 fun hc => ((hPQ v).mp (.inr hc)).2 ⟨h₂,h₃⟩
    simp [holders,hp,holds_of_none hnone,holds_of_none hnone']
  · obtain ⟨page,hpage,named⟩ := remains_named populated agrees entries ⟨h₁,h₂⟩
    rcases (hPQ v).mpr ⟨h₁,h₂⟩ with ht | ht
    · have hfirst := takes.page hpage ht
      have hnone : right.pma.pageManager[v]? = none := (takes' v).2 (alone v ht)
      exact ⟨first,page,by simp [holders,hp,holds_of_some hfirst,holds_of_none hnone],
        hrange v ht,hfirst,hpage,named⟩
    · have hright := takes'.page hpage ht
      have hnone : first.pma.pageManager[v]? = none := (takes v).2 fun hc => alone v hc ht
      exact ⟨right,page,by simp [holders,hp,holds_of_some hright,holds_of_none hnone],
        hrange' v ht,hright,hpage,named⟩
  · intro piece hpiece v hv
    rw [hp,List.mem_cons,List.mem_singleton] at hpiece
    rcases hpiece with rfl | rfl
    · exact hrange v (takes.test hv)
    · exact hrange' v (takes'.test hv)

include populated in
theorem takes_inner (hab : a ≤ b) :
    Takes vma (leftPart (leftPart vma b) a) fun v => HasPage vma v ∧ v < a / 4096 := by
  intro v
  have houter := takes_leftPart populated b v
  change (_ → (carve (leftPart vma b).pma.pageManager _ _)[v]? = _) ∧
    (_ → (carve (leftPart vma b).pma.pageManager _ _)[v]? = _)
  rw [getElem?_carve]
  change (_ → (if a / 4096 ≤ v ∧ v < b / 4096 then _ else _) = _) ∧
    (_ → (if a / 4096 ≤ v ∧ v < b / 4096 then _ else _) = _)
  constructor
  · rintro ⟨h₁,h₂⟩
    rw [if_neg (by omega)]
    exact houter.1 ⟨h₁,by omega⟩
  · intro h
    split
    · rfl
    · exact houter.2 fun hc => h ⟨hc.1,by omega⟩

include populated agrees entries in
theorem unmapped_of_cut (framed : vma.mapType = .framed) (hab : a ≤ b)
    (result : (r.1, splitOff r.2) = cutVma vma a b) : Unmapped vma a b pte pte' r := by
  have hpieces : pieces r = (cutVma vma a b).1 :: (cutVma vma a b).2.toList := by
    rw [← result]
    rfl
  have hdiv := Nat.div_le_div_right (c := 4096) hab
  by_cases ho : Overlaps vma a b
  · obtain ⟨hov,hov'⟩ := overlaps_iff.mp ho
    by_cases ha : a ≤ vma.startVaddr <;> by_cases hb : b < vma.endVaddr
    · rw [cutVma_left ho ha hb] at hpieces
      refine unmapped_one populated agrees entries hpieces (takes_rightPart b) (fun v => ?_)
        fun v h => h
      unfold Remains HasPage
      omega
    · have hb' := not_lt.mp hb
      rw [cutVma_whole ho ha hb'] at hpieces
      refine unmapped_one (P := fun _ => False) populated agrees entries hpieces (fun v => ?_)
        (fun v => ?_) fun _ h => h.elim
      · refine ⟨fun h => h.elim,fun _ => ?_⟩
        unfold emptied
        rw [framed]
        rw [getElem?_carve]
        split_ifs with hout
        · rfl
        · exact not_not.mp fun hc => hout ((populated v).mp hc)
      · refine iff_of_false id ?_
        unfold Remains HasPage
        omega
    · have ha' := not_le.mp ha
      rw [cutVma_inside ho ha' hb] at hpieces
      refine unmapped_two populated agrees entries hpieces (takes_inner populated hab)
        (takes_rightPart b) (fun v => ?_) (fun v hp hq => ?_) (fun v h => ?_) fun v h => h
      · unfold Remains HasPage
        omega
      · omega
      · exact ⟨h.1.1,h.2⟩
    · have ha' := not_le.mp ha
      have hb' := not_lt.mp hb
      rw [cutVma_right ho ha' hb'] at hpieces
      refine unmapped_one populated agrees entries hpieces (takes_leftPart populated a)
        (fun v => ?_) fun v h => ⟨h.1.1,h.2⟩
      unfold Remains HasPage
      omega
  · rw [cutVma_apart ho] at hpieces
    refine unmapped_one (P := HasPage vma) populated agrees entries hpieces (fun v => ?_)
      (fun v => ?_) fun v h => h
    · exact ⟨fun _ => rfl,fun h => not_not.mp fun hc => h ((populated v).mp hc)⟩
    · have hfar := overlaps_iff.not.mp ho
      unfold Remains HasPage
      omega

end Outcomes

/-- For a fully populated segment, `unmap_if_overlap` returns and leaves the segment and the
entries as it should, exactly when the range and the segment do not overlap or the addresses
that it checks of the segment are accepted. -/
theorem unmap_if_overlap_iff (root : ℕ) (K : ℕ → Prop) (h ext : ℕ → ℕ) (vma : VirtMemoryAddr)
    (pt : PageTable) (m : Machine)
    (space : Space m pt root K (fun p => h p + vmaHeld vma p) ext)
    (framed : vma.mapType = .framed) (populated : FullyPopulated vma)
    (agrees : AgreesWith vma (pteAt m root)) (first last : ℕ) (hle : first ≤ last)
    (hfirst : checkUserVa first = true) (hlast : checkUserVa last = true) :
    (∃ r m', vma.unmapIfOverlap first last pt m = .ok r m' ∧
      Unmapped vma (pageDown first) (pageUp last) (pteAt m root) (pteAt m' root) r) ↔
      (Overlaps vma (pageDown first) (pageUp last) →
        CutAccepted vma (pageDown first) (pageUp last)) := by
  have hab := pageDown_le_pageUp hle
  have spec := unmapIfOverlap_space vma space hle
  have ready : CutReady vma (pageDown first) (pageUp last) ↔
      (Overlaps vma (pageDown first) (pageUp last) →
        CutAccepted vma (pageDown first) (pageUp last)) := by
    by_cases ho : Overlaps vma (pageDown first) (pageUp last)
    · rw [cutReady_iff (fun v h₁ h₂ => (populated v).mpr ⟨h₁,h₂⟩) hab ho]
      exact ⟨fun hc _ => hc,fun hc => hc ho⟩
    · exact ⟨fun _ hc => (ho hc).elim,fun _ hc => (ho hc).elim⟩
  rw [← ready]
  constructor
  · rintro ⟨r,m',hrun,-⟩
    exact (spec.of_ok hrun).2.2.ready
  · intro hready
    obtain ⟨r,m',hrun,-,-,post⟩ :=
      (spec.onError fun _ _ hn => hn ⟨hfirst,hlast,hready⟩).returns
    exact ⟨r,m',hrun,unmapped_of_cut populated agrees post.pte framed hab post.result⟩

def topPage : List Call := [.mmap 0xfffff000 0xfff 3 0x32 0 0, .fault 0xfffff000]

def populatedAt (p : Process) (m : Machine) (key stop : ℕ) : Bool :=
  p.vm.areas[key]?.any fun vma => decide (vma.mapType = .framed) && vma.startVaddr == key &&
    vma.endVaddr == stop &&
    decide (vma.pma.pageManager.toList.map (·.1) =
      List.range' (key / 4096) (stop / 4096 - key / 4096)) &&
    vma.pma.pageManager.toList.all fun q =>
      (pteAt m (p.vm.pt.rootPaddr / 4096) q.1).any fun word =>
        PageTableEntry.ppn word == q.2.ppn

theorem populatedAt_elim {p : Process} {m : Machine} {key stop : ℕ}
    (h : populatedAt p m key stop = true) :
    ∃ vma, p.vm.areas[key]? = some vma ∧ vma.mapType = .framed ∧ vma.startVaddr = key ∧
      vma.endVaddr = stop ∧ FullyPopulated vma ∧
      AgreesWith vma (pteAt m (p.vm.pt.rootPaddr / 4096)) := by
  obtain ⟨vma,hk,hvma⟩ := (Option.any_eq_true _ _).mp h
  simp only [Bool.and_eq_true,decide_eq_true_eq,beq_iff_eq,List.all_eq_true] at hvma
  obtain ⟨⟨⟨⟨framed,hstart⟩,hend⟩,hkeys⟩,hpages⟩ := hvma
  refine ⟨vma,hk,framed,hstart,hend,fun v => ?_,fun v page hpage => ?_⟩
  · rw [← SegmentProtect.mem_keys,hkeys,List.mem_range'_1,HasPage,hstart,hend]
    omega
  · obtain ⟨word,hword,hframe⟩ :=
      (Option.any_eq_true _ _).mp (hpages (v, page) (mem_toList.mpr hpage))
    exact ⟨word,hword,beq_iff_eq.mp hframe⟩

/-- What a space owns is held as if by one of its segments alone. -/
theorem segment_space {root k : ℕ} {K : ℕ → Prop} {ms : MemorySet} {m : Machine}
    {vma : VirtMemoryAddr} (own : Owned root K ms m) (hk : ms.areas[k]? = some vma) :
    ∃ ext, Space m ms.pt root K (fun q => 0 + vmaHeld vma q) ext := by
  obtain ⟨ext,space⟩ := own.space
  refine ⟨ext,space.held_congr fun q => (Nat.zero_add _).trans_le ?_⟩
  have hle := weightAt_le_total (fun v => vmaHeld v q) ms.areas k
  rwa [weightAt_some hk] at hle

/-- The first of two resident pages is unmapped from their segment. -/
theorem unmap_if_overlap_first : ∃ ms m₁ p m root vma r m',
    MemorySet.newUser (bootMachine 64) = .ok ms m₁ ∧
    Runs Call.exec (fun _ _ _ => True) ⟨ms, ∅⟩ m₁ p m ∧ p.vm.areas[0x10000]? = some vma ∧
    vma.unmapIfOverlap 0x10000 0x11000 p.vm.pt m = .ok r m' ∧
    Unmapped vma (pageDown 0x10000) (pageUp 0x11000) (pteAt m root) (pteAt m' root) r := by
  have computed : fromBoot 64 touchedPages (fun p m => populatedAt p m 0x10000 0x12000) = true := by
    decide +kernel
  obtain ⟨root,K,ms,m₁,p,m,created,run,own,-,rfl,computed⟩ :=
    fromBoot_elim (by decide) computed
  obtain ⟨vma,hk,framed,hstart,hend,populated,agrees⟩ := populatedAt_elim computed
  obtain ⟨ext,space⟩ := segment_space own hk
  have accepted : CutAccepted vma (pageDown 0x10000) (pageUp 0x11000) :=
    cutAccepted_of_le (by omega) (by omega) (by decide)
  obtain ⟨r,m',hrun,done⟩ := (unmap_if_overlap_iff _ K (fun _ => 0) ext vma p.vm.pt m
    space framed populated agrees 0x10000 0x11000
    (by decide) (by decide) (by decide)).mpr fun _ => accepted
  exact ⟨ms,m₁,p,m,_,vma,r,m',created,run,hk,hrun,done⟩

/-- The segment ends just above the last user address, and removing its page checks that end. -/
theorem unmap_if_overlap_stops : ∃ ms m₁ p m root K, ∃ h ext : ℕ → ℕ, ∃ vma m',
    MemorySet.newUser (bootMachine 64) = .ok ms m₁ ∧
    Runs Call.exec (fun _ _ _ => True) ⟨ms, ∅⟩ m₁ p m ∧ p.vm.areas[0xfffff000]? = some vma ∧
    Space m p.vm.pt root K (fun q => h q + vmaHeld vma q) ext ∧ vma.mapType = .framed ∧
    FullyPopulated vma ∧ AgreesWith vma (pteAt m root) ∧
    vma.unmapIfOverlap 0xfffff000 0xffffffff p.vm.pt m = .error .assertion m' := by
  have computed : fromBoot 64 topPage (fun p m => populatedAt p m 0xfffff000 0x100000000 &&
      p.vm.areas[0xfffff000]?.all fun vma =>
        stopsWith (vma.unmapIfOverlap 0xfffff000 0xffffffff p.vm.pt) m
          fun e _ => e == .assertion) = true := by
    decide +kernel
  obtain ⟨root,K,ms,m₁,p,m,created,run,own,-,rfl,computed⟩ :=
    fromBoot_elim (by decide) computed
  obtain ⟨hpop,hstop⟩ := Bool.and_eq_true_iff.mp computed
  obtain ⟨vma,hk,framed,-,-,populated,agrees⟩ := populatedAt_elim hpop
  obtain ⟨ext,space⟩ := segment_space own hk
  rw [hk,Option.all_some] at hstop
  obtain ⟨_,m',hrun,he⟩ := stopsWith_elim hstop
  cases beq_iff_eq.mp he
  exact ⟨ms,m₁,p,m,_,K,fun _ => 0,ext,vma,m',created,run,hk,
    space,framed,populated,agrees,hrun⟩

end DuckOs.OverlapUnmaps
