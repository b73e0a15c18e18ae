import DuckOs.SegmentUnmap

namespace DuckOs.AreaUnmap
open ExecutionRules AddressModel KernelMachine PageTableModel VirtMemoryModel
open FrameOwnership SegmentViews SegmentUnmap
open OrderedMaps

variable {m : Machine} {pt : PageTable} {root : ℕ} {K : ℕ → Prop} {h ext : ℕ → ℕ}

section Insert

theorem areasHeld_insert (areas : VmaRange) (key : ℕ) (vma : VirtMemoryAddr) (p : ℕ) :
    areasHeld (areas.insert key vma) p + weightAt (fun v => vmaHeld v p) areas key =
      areasHeld areas p + vmaHeld vma p :=
  total_insert _ areas key vma

theorem areasHeld_replace {areas : VmaRange} {key : ℕ} {old : VirtMemoryAddr}
    (hk : areas[key]? = some old) (vma : VirtMemoryAddr) (p : ℕ) :
    areasHeld (areas.insert key vma) p + vmaHeld old p = areasHeld areas p + vmaHeld vma p := by
  have hi := areasHeld_insert areas key vma p
  rwa [weightAt_some hk] at hi

theorem insertSegment_space (areas : VmaRange) (key : ℕ) (vma : VirtMemoryAddr)
    (s : Space m pt root K (fun p => h p + (areasHeld areas p + vmaHeld vma p)) ext) :
    Holds (VmaRange.insertSegment areas key vma) m
      (fun r m' => r = areas.insert key vma ∧
        Space m' pt root K (fun p => h p + areasHeld (areas.insert key vma) p) ext ∧
        pteAt m' root = pteAt m root ∧ UnmapStep m m' pt K)
      (Never Panic Machine) := by
  unfold VmaRange.insertSegment VmaRange.dropReplaced
  cases hk : areas[key]? with
  | none =>
    refine holds_pure ⟨rfl,s.held_congr fun p => ?_,rfl,UnmapStep.refl m pt K⟩
    have hi := areasHeld_insert areas key vma p
    omega
  | some old =>
    have s' : Space m pt root K
        (fun p => (h p + areasHeld (areas.insert key vma) p) + vmaHeld old p) ext := by
      refine s.held_congr fun p => ?_
      have hi := areasHeld_replace hk vma p
      omega
    refine Holds.bind (dropVma_space old s') ?_
    rintro - m' ⟨s₁,hpte,hstep⟩
    exact holds_pure ⟨rfl,s₁,hpte,hstep⟩

end Insert

section Rounds

/-- The view of a space whose table hangs at `root`. -/
def viewOf (areas : VmaRange) (m : Machine) (root : ℕ) : View := ⟨areas, pteAt m root⟩

structure Reaches (m : Machine) (pt : PageTable) (root : ℕ) (K : ℕ → Prop) (h ext : ℕ → ℕ)
    (w : View) (areas : VmaRange) (m' : Machine) : Prop where
  view : viewOf areas m' root = w
  space : Space m' pt root K (fun p => h p + areasHeld areas p) ext
  step : UnmapStep m m' pt K

section

variable {areas : VmaRange} {i : ℕ} {vma vma' : VirtMemoryAddr} (hi : areas[i]? = some vma)
include hi

theorem areasHeld_erase (p : ℕ) :
    areasHeld areas p = areasHeld (areas.erase i) p + vmaHeld vma p := by
  have he := total_erase (fun v => vmaHeld v p) areas i
  rw [weightAt_some hi] at he
  unfold areasHeld
  omega

theorem areasHeld_put (x : VirtMemoryAddr) (p : ℕ) :
    areasHeld (areas.insert i x) p = areasHeld (areas.erase i) p + vmaHeld x p := by
  have hreplace := areasHeld_replace hi x p
  have herase := areasHeld_erase hi p
  omega

theorem roundReady_iff (first last : ℕ) (m : Machine) (root : ℕ) :
    RoundReady first last (viewOf areas m root) i ↔ checkUserVa first = true ∧
      checkUserVa last = true ∧ CutReady vma (pageDown first) (pageUp last) := by
  refine ⟨fun hr => hr vma hi,fun hr v hv => ?_⟩
  change areas[i]? = some v at hv
  rw [hi] at hv
  cases hv
  exact hr

variable {m' : Machine} {a b : ℕ}
  (hpte : ∀ v, pteAt m' root v = if Cleared vma a b v then none else pteAt m root v)
include hpte

theorem viewOf_cut (hcut : (vma', none) = cutVma vma a b) :
    viewOf (areas.insert i vma') m' root = cutAt a b (viewOf areas m root) i := by
  unfold cutAt viewOf
  simp only [hi,← hcut]
  ext1
  · rfl
  · exact funext hpte

theorem viewOf_split {right : VirtMemoryAddr} (hcut : (vma', some right) = cutVma vma a b) :
    viewOf ((areas.insert i vma').insert right.startVaddr right) m' root =
      cutAt a b (viewOf areas m root) i := by
  unfold cutAt viewOf
  simp only [hi,← hcut]
  ext1
  · rfl
  · exact funext hpte

end

theorem unmapAt_space {first last : ℕ} (hle : first ≤ last) (areas : VmaRange) (i : ℕ)
    (s : Space m pt root K (fun p => h p + areasHeld areas p) ext) :
    Holds (VmaRange.unmapAt first last pt areas i) m
      (fun r m' => RoundReady first last (viewOf areas m root) i ∧
        Reaches m pt root K h ext
          (cutAt (pageDown first) (pageUp last) (viewOf areas m root) i) r m')
      (fun _ _ => ¬ RoundReady first last (viewOf areas m root) i) := by
  unfold VmaRange.unmapAt
  cases hi : areas[i]? with
  | none =>
    refine holds_pure ⟨fun vma hv => ?_,?_,s,UnmapStep.refl m pt K⟩
    · change areas[i]? = some vma at hv
      rw [hi] at hv
      cases hv
    · unfold cutAt viewOf
      simp only [hi]
  | some vma =>
    have s' : Space m pt root K (fun p => (h p + areasHeld (areas.erase i) p) + vmaHeld vma p)
        ext := by
      refine s.held_congr fun p => ?_
      rw [areasHeld_erase hi p]
      omega
    refine ((unmapIfOverlap_space vma s' hle).onError
      fun _ _ hf hr => hf ((roundReady_iff hi _ _ _ _).mp hr)).bind ?_
    rintro ⟨vma',r⟩ m₁ ⟨hfirst,hlast,post⟩
    have hready := (roundReady_iff hi first last m root).mpr ⟨hfirst,hlast,post.ready⟩
    have hresult := post.result
    have s₁ := post.space
    rw [← hresult] at s₁
    cases hs : splitOff r with
    | none =>
      rw [hs] at hresult s₁
      have done : Reaches m pt root K h ext
          (cutAt (pageDown first) (pageUp last) (viewOf areas m root) i)
          (areas.insert i vma') m₁ := by
        refine ⟨viewOf_cut hi post.pte hresult,s₁.held_congr fun p => ?_,post.step⟩
        rw [areasHeld_put hi,cutHeld]
        dsimp only [Option.elim_none]
        omega
      cases r with
      | split right => cases hs
      | unchange => exact holds_pure ⟨hready,done⟩
      | shrink => exact holds_pure ⟨hready,done⟩
      | removed => exact holds_pure ⟨hready,done⟩
    | some right =>
      cases r with
      | split right' =>
        cases hs
        have s₂ : Space m₁ pt root K
            (fun p => h p + (areasHeld (areas.insert i vma') p + vmaHeld right p)) ext := by
          refine s₁.held_congr fun p => ?_
          rw [areasHeld_put hi,cutHeld]
          change _ ≤ h p + areasHeld (areas.erase i) p + (vmaHeld vma' p + vmaHeld right p)
          omega
        refine (insertSegment_space (areas.insert i vma') right.startVaddr right s₂).weaken.imp ?_
        rintro _ m₂ ⟨rfl,s₃,hpte₂,hstep₂⟩
        refine ⟨hready,viewOf_split hi (fun v => ?_) hresult,s₃,post.step.trans hstep₂⟩
        rw [hpte₂]
        exact post.pte v
      | unchange => cases hs
      | shrink => cases hs
      | removed => cases hs

theorem rounds_space {first last : ℕ} (hle : first ≤ last) : ∀ (keys : List ℕ) (areas : VmaRange)
    (m : Machine), Space m pt root K (fun p => h p + areasHeld areas p) ext →
    Holds (keys.foldlM (VmaRange.unmapAt first last pt) areas) m
      (fun r m' => RoundsReady first last (viewOf areas m root) keys ∧
        Reaches m pt root K h ext
          (keys.foldl (cutAt (pageDown first) (pageUp last)) (viewOf areas m root)) r m')
      (fun _ _ => ¬ RoundsReady first last (viewOf areas m root) keys) := by
  intro keys
  induction keys with
  | nil =>
    intro areas m s
    exact holds_pure ⟨trivial,rfl,s,UnmapStep.refl m pt K⟩
  | cons i keys ih =>
    intro areas m s
    refine ((unmapAt_space hle areas i s).onError fun _ _ hf hr => hf hr.1).bind ?_
    rintro areas₁ m₁ ⟨hready,hview,s₁,hstep⟩
    have rest := ih areas₁ m₁ s₁
    rw [hview] at rest
    refine rest.mono ?_ fun _ _ hf hr => hf hr.2
    rintro areas₂ m₂ ⟨hready₂,hview₂,s₂,hstep₂⟩
    exact ⟨⟨hready,hready₂⟩,hview₂,s₂,hstep.trans hstep₂⟩

end Rounds

section Unmap

theorem overlapLoop_holds (first last : ℕ) : ∀ (l : List (ℕ × VirtMemoryAddr)) (acc : List ℕ),
    Holds (l.foldlM (fun idx entry => do
        let overlap ← entry.2.isOverlap first last
        pure (if overlap then idx ++ [entry.1] else idx)) acc) m
      (fun r m' => r = acc ++ (l.filter fun e => decide (Overlaps e.2 first last)).map (·.1) ∧
        m = m' ∧ (l = [] ∨ first ≤ last))
      (fun _ _ => l ≠ [] ∧ ¬ first ≤ last) := by
  intro l
  induction l with
  | nil =>
    intro acc
    exact holds_pure ⟨by simp,rfl,.inl rfl⟩
  | cons e l ih =>
    intro acc
    have hone : Holds (do
        let overlap ← e.2.isOverlap first last
        pure (if overlap then acc ++ [e.1] else acc)) m
        (fun r m' => r = (if decide (Overlaps e.2 first last) then acc ++ [e.1] else acc) ∧
          m = m' ∧ first ≤ last)
        (fun _ _ => e :: l ≠ [] ∧ ¬ first ≤ last) := by
      refine ((isOverlap_holds e.2 first last).onError
        fun _ _ hf => ⟨by simp,hf⟩).bind ?_
      rintro _ _ ⟨rfl,rfl,hle⟩
      exact holds_pure ⟨rfl,rfl,hle⟩
    refine hone.bind ?_
    rintro _ _ ⟨rfl,rfl,hle⟩
    refine (ih _).mono ?_ fun _ _ hf => ⟨by simp,hf.2⟩
    rintro r m' ⟨rfl,hm,-⟩
    refine ⟨?_,hm,.inr hle⟩
    by_cases ho : Overlaps e.2 first last
    · simp [ho]
    · simp [ho]

theorem unmap_space (areas : VmaRange) (first last : ℕ)
    (s : Space m pt root K (fun p => h p + areasHeld areas p) ext) :
    Holds (VmaRange.unmap areas first last pt) m
      (fun r m' => (viewOf areas m root).UnmapReady first last ∧
        Reaches m pt root K h ext ((viewOf areas m root).unmap first last) r m')
      (fun _ _ => ¬ (viewOf areas m root).UnmapReady first last) := by
  unfold VmaRange.unmap View.unmap View.UnmapReady
  by_cases heq : first = last
  · rw [if_pos heq,if_pos heq]
    exact holds_pure ⟨.inl heq,rfl,s,UnmapStep.refl m pt K⟩
  · rw [if_neg heq,if_neg heq]
    refine Holds.bind ((overlapLoop_holds first last areas.toList []).onError ?_) ?_
    · rintro e m' ⟨hne,hle⟩ (hc | hc | hc)
      · exact heq hc
      · exact hne hc
      · exact hle hc.1
    · rintro _ _ ⟨rfl,rfl,hcase⟩
      change Holds ((overlapKeys areas first last).foldlM _ areas) m _ _
      rcases hcase with hnil | hle
      · have hkeys := overlapKeys_empty hnil first last
        rw [hkeys]
        refine holds_pure ⟨.inr (.inl hnil),?_,s,UnmapStep.refl m pt K⟩
        change _ = (overlapKeys areas first last).foldl _ _
        rw [hkeys]
        rfl
      · refine (rounds_space hle (overlapKeys areas first last) areas m s).mono ?_ ?_
        · rintro r m' ⟨hready,hreach⟩
          exact ⟨.inr (.inr ⟨hle,hready⟩),hreach⟩
        · rintro e m' hf (hc | hc | hc)
          · exact heq hc
          · refine hf ?_
            have hkeys : overlapKeys areas first last = [] := overlapKeys_empty hc first last
            rw [hkeys]
            trivial
          · exact hf hc.2

end Unmap

end DuckOs.AreaUnmap
