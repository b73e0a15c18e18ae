import DuckOs.FrameOwnership
import DuckOs.VirtMemoryModel

/-! Address spaces as values: the segments and the entry of every page. Each
operation on segments is a function here; the kernel's version is related to it
in the modules that follow. -/
namespace DuckOs.SegmentViews
open AddressModel VirtMemoryModel FrameOwnership
open OrderedMaps

variable {vma : VirtMemoryAddr} {first last a : ℕ}

@[ext]
structure View where
  areas : VmaRange
  pte : ℕ → Option ℕ

variable {P : View → Prop}

def vmaHeld (vma : VirtMemoryAddr) (p : ℕ) : ℕ := pagesHeld vma.pma.pageManager p

def areasHeld (areas : VmaRange) (p : ℕ) : ℕ := total (fun vma => vmaHeld vma p) areas

def leftPart (vma : VirtMemoryAddr) (pos : ℕ) : VirtMemoryAddr :=
  { vma with
    endVaddr := pos
    pma := { vma.pma with
      pageManager := carve vma.pma.pageManager (pos / 4096) (vma.endVaddr / 4096) } }

def rightPart (vma : VirtMemoryAddr) (pos : ℕ) : VirtMemoryAddr :=
  { vma with
    startVaddr := pos
    pma := ⟨slice vma.pma.pageManager (pos / 4096) (vma.endVaddr / 4096), none⟩ }

def emptied (vma : VirtMemoryAddr) : VirtMemoryAddr :=
  match vma.mapType with
  | .framed => { vma with
      pma := { vma.pma with
        pageManager := carve vma.pma.pageManager (vma.startVaddr / 4096) (vma.endVaddr / 4096) } }
  | .direct => vma

theorem vmaHeld_parts (vma : VirtMemoryAddr) (pos p : ℕ) :
    vmaHeld vma p = vmaHeld (leftPart vma pos) p + vmaHeld (rightPart vma pos) p := by
  rw [vmaHeld,pagesHeld,total_slice_carve _ _ (pos / 4096) (vma.endVaddr / 4096),Nat.add_comm]
  rfl

def Overlaps (vma : VirtMemoryAddr) (a b : ℕ) : Prop :=
  ¬ (b ≤ vma.startVaddr ∨ vma.endVaddr ≤ a)

instance (vma : VirtMemoryAddr) (a b : ℕ) : Decidable (Overlaps vma a b) :=
  inferInstanceAs (Decidable (¬ _))

def cutVma (vma : VirtMemoryAddr) (a b : ℕ) : VirtMemoryAddr × Option VirtMemoryAddr :=
  if ¬ Overlaps vma a b then (vma, none)
  else if a ≤ vma.startVaddr then
    if b < vma.endVaddr then (rightPart vma b, none) else (emptied vma, none)
  else if b < vma.endVaddr then (leftPart (leftPart vma b) a, some (rightPart vma b))
  else (leftPart vma a, none)

def Cleared (vma : VirtMemoryAddr) (a b v : ℕ) : Prop :=
  Overlaps vma a b ∧ max a vma.startVaddr / 4096 ≤ v ∧ v < min b vma.endVaddr / 4096

instance (vma : VirtMemoryAddr) (a b v : ℕ) : Decidable (Cleared vma a b v) :=
  inferInstanceAs (Decidable (_ ∧ _))

def clearPages (pte : ℕ → Option ℕ) (first last : ℕ) : ℕ → Option ℕ :=
  fun v => if first ≤ v ∧ v < last then none else pte v

def cutAt (a b : ℕ) (w : View) (i : ℕ) : View :=
  match w.areas[i]? with
  | none => w
  | some vma =>
    let pte := fun v => if Cleared vma a b v then none else w.pte v
    match (cutVma vma a b).2 with
    | none => ⟨w.areas.insert i (cutVma vma a b).1, pte⟩
    | some right =>
      ⟨(w.areas.insert i (cutVma vma a b).1).insert right.startVaddr right, pte⟩

def overlapKeys (areas : VmaRange) (first last : ℕ) : List ℕ :=
  (areas.toList.filter fun e => decide (Overlaps e.2 first last)).map (·.1)

def pageDown (va : ℕ) : ℕ := va / 4096 * 4096
def pageUp (va : ℕ) : ℕ := (va + 4095) / 4096 * 4096

def View.unmap (w : View) (first last : ℕ) : View :=
  if first = last then w
  else (overlapKeys w.areas first last).foldl (cutAt (pageDown first) (pageUp last)) w

structure SplitReady (vma : VirtMemoryAddr) (pos : ℕ) : Prop where
  cut : checkUserVa pos = true
  limit : checkUserVa vma.endVaddr = true
  resident : ∀ v, pos / 4096 ≤ v → v < vma.endVaddr / 4096 → vma.pma.pageManager[v]? ≠ none

structure RemoveReady (vma : VirtMemoryAddr) : Prop where
  first : checkUserVa vma.startVaddr = true
  limit : checkUserVa vma.endVaddr = true
  pages : ∀ v, vma.startVaddr / 4096 ≤ v → v < vma.endVaddr / 4096 → checkUserVa (v * 4096) = true

def CutReady (vma : VirtMemoryAddr) (a b : ℕ) : Prop :=
  Overlaps vma a b →
    if a ≤ vma.startVaddr then
      if b < vma.endVaddr then SplitReady vma b ∧ RemoveReady (leftPart vma b)
      else RemoveReady vma
    else if b < vma.endVaddr then
      SplitReady vma b ∧ SplitReady (leftPart vma b) a ∧
        RemoveReady (rightPart (leftPart vma b) a)
    else SplitReady vma a ∧ RemoveReady (rightPart vma a)

def RoundReady (first last : ℕ) (w : View) (i : ℕ) : Prop :=
  ∀ vma, w.areas[i]? = some vma → checkUserVa first = true ∧ checkUserVa last = true ∧
    CutReady vma (pageDown first) (pageUp last)

def RoundsReady (first last : ℕ) : View → List ℕ → Prop
  | _, [] => True
  | w, i :: is => RoundReady first last w i ∧
      RoundsReady first last (cutAt (pageDown first) (pageUp last) w i) is

def View.UnmapReady (w : View) (first last : ℕ) : Prop :=
  first = last ∨ w.areas.toList = [] ∨
    (first ≤ last ∧ RoundsReady first last w (overlapKeys w.areas first last))

section Rules

variable {w : View} {b i : ℕ}

theorem cutAt_none (hi : w.areas[i]? = none) : cutAt a b w i = w := by
  unfold cutAt
  simp only [hi]

theorem cutAt_pte (hi : w.areas[i]? = some vma) (v : ℕ) :
    (cutAt a b w i).pte v = if Cleared vma a b v then none else w.pte v := by
  unfold cutAt
  simp only [hi]
  cases (cutVma vma a b).2 with
  | none => rfl
  | some right => rfl

theorem cutAt_areas (hi : w.areas[i]? = some vma) {k : ℕ} {vma' : VirtMemoryAddr}
    (hk : (cutAt a b w i).areas[k]? = some vma') :
    (∃ right, (cutVma vma a b).2 = some right ∧ k = right.startVaddr ∧ vma' = right) ∨
      ((∀ right, (cutVma vma a b).2 = some right → k ≠ right.startVaddr) ∧
        ((k = i ∧ vma' = (cutVma vma a b).1) ∨ (k ≠ i ∧ w.areas[k]? = some vma'))) := by
  unfold cutAt at hk
  simp only [hi] at hk
  have below : (w.areas.insert i (cutVma vma a b).1)[k]? = some vma' →
      (k = i ∧ vma' = (cutVma vma a b).1) ∨ (k ≠ i ∧ w.areas[k]? = some vma') := by
    intro h
    rw [getElem?_insert] at h
    by_cases hki : k = i
    · rw [if_pos hki] at h
      cases h
      exact .inl ⟨hki,rfl⟩
    · rw [if_neg hki] at h
      exact .inr ⟨hki,h⟩
  cases hc : (cutVma vma a b).2 with
  | none =>
    rw [hc] at hk
    exact .inr ⟨fun right hr => (by cases hr),below hk⟩
  | some right =>
    rw [hc] at hk
    rw [getElem?_insert] at hk
    by_cases hkr : k = right.startVaddr
    · rw [if_pos hkr] at hk
      cases hk
      exact .inl ⟨vma',rfl,hkr,rfl⟩
    · rw [if_neg hkr] at hk
      refine .inr ⟨fun right' hr => ?_,below hk⟩
      cases hr
      exact hkr

theorem cutAt_forall {P : ℕ → VirtMemoryAddr → Prop}
    (h : ∀ (k : ℕ) (vma : VirtMemoryAddr), w.areas[k]? = some vma → P k vma)
    (hcut : ∀ vma, w.areas[i]? = some vma → P i (cutVma vma a b).1 ∧
      ∀ right, (cutVma vma a b).2 = some right → P right.startVaddr right)
    (k : ℕ) (vma' : VirtMemoryAddr) (hk : (cutAt a b w i).areas[k]? = some vma') : P k vma' := by
  cases hi : w.areas[i]? with
  | none =>
    rw [cutAt_none hi] at hk
    exact h k vma' hk
  | some vma =>
    obtain ⟨hstays,hright⟩ := hcut vma hi
    rcases cutAt_areas hi hk with ⟨right,hr,rfl,rfl⟩ | ⟨-,⟨rfl,rfl⟩ | ⟨-,hold⟩⟩
    · exact hright vma' hr
    · exact hstays
    · exact h k vma' hold

theorem overlapKeys_empty {areas : VmaRange} (h : areas.toList = []) (first last : ℕ) :
    overlapKeys areas first last = [] := by
  unfold overlapKeys
  rw [h]
  rfl

theorem rounds_induct
    (step : ∀ w i, P w → RoundReady first last w i → P (cutAt (pageDown first) (pageUp last) w i)) :
    ∀ (keys : List ℕ) (w : View), P w → RoundsReady first last w keys →
      P (keys.foldl (cutAt (pageDown first) (pageUp last)) w) := by
  intro keys
  induction keys with
  | nil => exact fun w hw _ => hw
  | cons i keys ih => exact fun w hw hr => ih _ (step w i hw hr.1) hr.2

theorem unmap_induct (hw : P w) (ready : w.UnmapReady first last)
    (step : ∀ w i, first ≠ last → first ≤ last → P w → RoundReady first last w i →
      P (cutAt (pageDown first) (pageUp last) w i)) : P (w.unmap first last) := by
  unfold View.unmap
  split_ifs with hne
  · exact hw
  · rcases ready with heq | hnil | ⟨hle,hrounds⟩
    · exact (hne heq).elim
    · rw [overlapKeys_empty hnil]
      exact hw
    · exact rounds_induct (fun w i => step w i hne hle) _ w hw hrounds

end Rules

def gapLimit : List (ℕ × VirtMemoryAddr) → ℕ
  | [] => mmapTop
  | e :: _ => e.1

theorem findAnywhereLoop_some {len : ℕ} : ∀ (l : List (ℕ × VirtMemoryAddr)) (lastEnd : ℕ),
    VmaRange.findAnywhereLoop len lastEnd l = some a →
    lastEnd ≤ a ∧ (a = lastEnd ∨ ∃ e ∈ l, a = e.2.endVaddr) ∧
      ∃ pre post, l = pre ++ post ∧ (∀ e ∈ pre, e.2.endVaddr ≤ a) ∧
        wrappingAdd a len ≤ gapLimit post := by
  intro l
  induction l with
  | nil =>
    intro lastEnd h
    unfold VmaRange.findAnywhereLoop at h
    split at h
    · rename_i hle
      cases h
      exact ⟨le_rfl,.inl rfl,[],[],rfl,fun e he => (by cases he),hle⟩
    · cases h
  | cons e l ih =>
    intro lastEnd h
    obtain ⟨start,vma⟩ := e
    unfold VmaRange.findAnywhereLoop at h
    split_ifs at h with hle
    · cases h
      exact ⟨le_rfl,.inl rfl,[],(start, vma) :: l,rfl,fun e he => (by cases he),hle⟩
    · obtain ⟨hge,hfrom,pre,post,rfl,hpre,hlimit⟩ := ih _ h
      refine ⟨le_trans (le_max_left _ _) hge,?_,(start, vma) :: pre,post,rfl,?_,hlimit⟩
      · rcases hfrom with hmax | ⟨e,he,ha⟩
        · rcases max_choice lastEnd vma.endVaddr with hm | hm
          · exact .inl (hmax.trans hm)
          · exact .inr ⟨(start, vma),List.mem_cons_self,hmax.trans hm⟩
        · exact .inr ⟨e,List.mem_cons_of_mem _ he,ha⟩
      · intro e he
        rcases List.mem_cons.mp he with rfl | he
        · exact le_trans (le_max_right _ _) hge
        · exact hpre e he

end DuckOs.SegmentViews
