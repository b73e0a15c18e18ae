import DuckOs.SegmentLookups
import DuckOs.OrderedExpansions

namespace DuckOs.ProtectedRanges
open ExecutionRules AddressModel PermissionFlags KernelMachine PageTableModel PageTableEntries
open PageTableTree BootMachine SyscallSteps MemorySyscalls
open PageModel VirtMemoryModel MemorySetModel FrameOwnership SegmentViews SegmentUnmap AreaUnmap
open SegmentProtect SpaceOperations UnmapRounds RangeRemoval SegmentTables SegmentLookups
open AddressChecks
open OrderedMaps OrderedExpansions

variable {k x v p i root a b : ℕ} {areas : VmaRange} {e : ℕ × VirtMemoryAddr} {m : Machine}
  {pte : ℕ → Option ℕ} {w : View} {vma : VirtMemoryAddr}

section Parts

def protectParts (a b : ℕ) (flags : MapPermission) (i : ℕ) (vma : VirtMemoryAddr) :
    List (ℕ × VirtMemoryAddr) :=
  (i, (protectVma vma a b flags).1) ::
    (protectVma vma a b flags).2.map fun part => (part.startVaddr, part)

theorem protectAt_areas (a b : ℕ) (flags : MapPermission) (w : View) (i : ℕ) :
    (protectAt a b flags w i).areas = expandAt (protectParts a b flags) w.areas i := by
  unfold protectAt expandAt
  cases w.areas[i]? with
  | none => rfl
  | some vma =>
    change insertAll _ _ = (List.map _ _).foldl _ _
    rw [List.foldl_map]
    rfl

theorem rounds_areas (a b : ℕ) (flags : MapPermission) : ∀ (l : List ℕ) (w : View),
    (l.foldl (protectAt a b flags) w).areas =
      l.foldl (expandAt (protectParts a b flags)) w.areas := by
  intro l
  induction l with
  | nil => exact fun _ => rfl
  | cons i l ih =>
    intro w
    rw [List.foldl_cons,List.foldl_cons,ih,protectAt_areas]

variable (flags : MapPermission)

theorem protectParts_apart (ho : ¬ Overlaps vma a b) :
    protectParts a b flags i vma = [(i, vma)] := by
  rw [protectParts,protectVma_apart flags ho]
  rfl

theorem protectParts_cases (ho : Overlaps vma a b) :
    (a ≤ vma.startVaddr ∧ b < vma.endVaddr ∧ protectParts a b flags i vma =
      [(i, recolour (leftPart vma b) flags), (b, rightPart vma b)]) ∨
    (a ≤ vma.startVaddr ∧ vma.endVaddr ≤ b ∧ protectParts a b flags i vma =
      [(i, recolour vma flags)]) ∨
    (vma.startVaddr < a ∧ b < vma.endVaddr ∧ protectParts a b flags i vma =
      [(i, leftPart (leftPart vma b) a), (b, rightPart vma b),
        (a, recolour (rightPart (leftPart vma b) a) flags)]) ∨
    (vma.startVaddr < a ∧ vma.endVaddr ≤ b ∧ protectParts a b flags i vma =
      [(i, leftPart vma a), (a, recolour (rightPart vma a) flags)]) := by
  unfold protectParts
  by_cases ha : a ≤ vma.startVaddr
  · by_cases hb : b < vma.endVaddr
    · exact .inl ⟨ha,hb,by rw [protectVma_left flags ho ha hb]; rfl⟩
    · have hb' := not_lt.mp hb
      exact .inr (.inl ⟨ha,hb',by rw [protectVma_whole flags ho ha hb']; rfl⟩)
  · have ha' := not_le.mp ha
    by_cases hb : b < vma.endVaddr
    · exact .inr (.inr (.inl ⟨ha',hb,by rw [protectVma_inside flags ho ha' hb]; rfl⟩))
    · have hb' := not_lt.mp hb
      exact .inr (.inr (.inr ⟨ha',hb',by rw [protectVma_right flags ho ha' hb']; rfl⟩))

end Parts

section Pieces

variable (flags : MapPermission)

/-- A part lies below the range, in it and has the new permission, or above it. -/
theorem protectParts_piece (hkey : vma.startVaddr = i) (he : e ∈ protectParts a b flags i vma) :
    ¬ Overlaps vma a b ∧ e = (i, vma) ∨ Overlaps vma a b ∧ e.2.startVaddr = e.1 ∧
      (e.1 = i ∧ i < a ∧ e.2.endVaddr = a ∧ e.2.mapPermission = vma.mapPermission ∨
        e.1 = max a i ∧ e.2.endVaddr = min b vma.endVaddr ∧ e.2.mapPermission = flags ∨
        e.1 = b ∧ b < vma.endVaddr ∧ e.2.endVaddr = vma.endVaddr ∧
          e.2.mapPermission = vma.mapPermission) := by
  subst hkey
  by_cases ho : Overlaps vma a b
  · refine .inr ⟨ho,?_⟩
    rcases protectParts_cases (i := vma.startVaddr) flags ho with ⟨ha,hb,hp⟩ | ⟨ha,hb,hp⟩ |
      ⟨ha,hb,hp⟩ | ⟨ha,hb,hp⟩ <;> simp only [hp,List.mem_cons,List.not_mem_nil,or_false] at he
    · rcases he with rfl | rfl
      · exact ⟨rfl,.inr (.inl ⟨(max_eq_right ha).symm,(min_eq_left hb.le).symm,rfl⟩)⟩
      · exact ⟨rfl,.inr (.inr ⟨rfl,hb,rfl,rfl⟩)⟩
    · rw [he]
      exact ⟨rfl,.inr (.inl ⟨(max_eq_right ha).symm,(min_eq_right hb).symm,rfl⟩)⟩
    · rcases he with rfl | rfl | rfl
      · exact ⟨rfl,.inl ⟨rfl,ha,rfl,rfl⟩⟩
      · exact ⟨rfl,.inr (.inr ⟨rfl,hb,rfl,rfl⟩)⟩
      · exact ⟨rfl,.inr (.inl ⟨(max_eq_left ha.le).symm,(min_eq_left hb.le).symm,rfl⟩)⟩
    · rcases he with rfl | rfl
      · exact ⟨rfl,.inl ⟨rfl,ha,rfl,rfl⟩⟩
      · exact ⟨rfl,.inr (.inl ⟨(max_eq_left ha.le).symm,(min_eq_right hb).symm,rfl⟩)⟩
  · rw [protectParts_apart flags ho,List.mem_singleton] at he
    exact .inl ⟨ho,he⟩

theorem protectParts_key (hkey : vma.startVaddr = i)
    (hk : k ∈ (protectParts a b flags i vma).map (·.1)) :
    k = i ∨ vma.startVaddr < k ∧ k < vma.endVaddr := by
  obtain ⟨e,he,rfl⟩ := List.mem_map.mp hk
  rcases protectParts_piece flags hkey he with ⟨-,rfl⟩ | ⟨ho,-,hpiece⟩
  · exact .inl rfl
  · have hov := overlaps_iff.mp ho
    omega

theorem protectParts_nodup (hab : a < b) (hkey : vma.startVaddr = i) :
    ((protectParts a b flags i vma).map (·.1)).Nodup := by
  by_cases ho : Overlaps vma a b
  · obtain ⟨hs,he⟩ := overlaps_iff.mp ho
    rcases protectParts_cases (i := i) flags ho with ⟨ha,hb,hp⟩ | ⟨ha,hb,hp⟩ | ⟨ha,hb,hp⟩ |
      ⟨ha,hb,hp⟩ <;> simp [hp] <;> omega
  · simp [protectParts_apart flags ho]

theorem protectParts_separate (hab : a < b) (keyed : Keyed areas)
    (apart : Apart areas) (outside : NoneInside areas) :
    Separate areas (protectParts a b flags) := by
  refine ⟨fun i vma hi => ?_,fun i vma _ => by simp [protectParts],?_⟩
  · exact protectParts_nodup flags hab (keyed i vma hi)
  · intro i j vma vma' k hi hj hk hk'
    have hkeyi := keyed i vma hi
    have hkeyj := keyed j vma' hj
    rcases protectParts_key flags hkeyi hk with rfl | hin
    · rcases protectParts_key flags hkeyj hk' with rfl | hin'
      · rfl
      · rw [← hkeyi] at hin'
        exact start_not_inside apart outside hi hj hin'
    · rcases protectParts_key flags hkeyj hk' with rfl | hin'
      · rw [← hkeyj] at hin
        exact (start_not_inside apart outside hj hi hin).symm
      · exact apart i j vma vma' hi hj k ⟨hin.1.le,hin.2⟩ ⟨hin'.1.le,hin'.2⟩

theorem protectParts_start (hkey : vma.startVaddr = i)
    (he : e ∈ protectParts a b flags i vma) : e.2.startVaddr = e.1 := by
  rcases protectParts_piece flags hkey he with ⟨-,rfl⟩ | ⟨-,hs,-⟩
  · exact hkey
  · exact hs

theorem protectParts_aligned (hkey : vma.startVaddr = i) (ha : 4096 ∣ a) (hb : 4096 ∣ b)
    (hv : 4096 ∣ vma.startVaddr ∧ 4096 ∣ vma.endVaddr)
    (he : e ∈ protectParts a b flags i vma) : 4096 ∣ e.2.startVaddr ∧ 4096 ∣ e.2.endVaddr := by
  rcases protectParts_piece flags hkey he with ⟨-,rfl⟩ | ⟨-,hs,hpiece⟩
  · exact hv
  · omega

theorem protectParts_within (hkey : vma.startVaddr = i)
    (he : e ∈ protectParts a b flags i vma) (hx : Within e.2 x) :
    Within vma x ∧
      e.2.mapPermission = if a ≤ x ∧ x < b then flags else vma.mapPermission := by
  have hx' : e.2.startVaddr ≤ x ∧ x < e.2.endVaddr := hx
  rcases protectParts_piece flags hkey he with ⟨ho,rfl⟩ | ⟨ho,hs,hpiece⟩
  · refine ⟨hx,(if_neg fun hc => ho (overlaps_iff.mpr ?_)).symm⟩
    exact ⟨hx'.1.trans_lt hc.2,hc.1.trans_lt hx'.2⟩
  · have hov := overlaps_iff.mp ho
    rcases hpiece with ⟨h₁,h₂,h₃,hperm⟩ | ⟨h₁,h₂,hperm⟩ | ⟨h₁,h₂,h₃,hperm⟩
    · exact ⟨⟨by omega,by omega⟩,hperm.trans (if_neg (by omega)).symm⟩
    · exact ⟨⟨by omega,by omega⟩,hperm.trans (if_pos (by omega)).symm⟩
    · exact ⟨⟨by omega,by omega⟩,hperm.trans (if_neg (by omega)).symm⟩

theorem protectParts_covers (hx : Within vma x) :
    ∃ e ∈ protectParts a b flags i vma, Within e.2 x := by
  obtain ⟨hs,he⟩ := hx
  by_cases ho : Overlaps vma a b
  · rcases protectParts_cases (i := i) flags ho with ⟨h₁,h₂,hp⟩ | ⟨h₁,h₂,hp⟩ | ⟨h₁,h₂,hp⟩ |
      ⟨h₁,h₂,hp⟩ <;> simp only [hp,List.exists_mem_cons_iff,List.not_mem_nil,false_and,
        exists_false,or_false]
    · by_cases hxb : x < b
      · exact .inl ⟨hs,hxb⟩
      · exact .inr ⟨not_lt.mp hxb,he⟩
    · exact ⟨hs,he⟩
    · by_cases hxa : x < a
      · exact .inl ⟨hs,hxa⟩
      · by_cases hxb : x < b
        · exact .inr (.inr ⟨not_lt.mp hxa,hxb⟩)
        · exact .inr (.inl ⟨not_lt.mp hxb,he⟩)
    · by_cases hxa : x < a
      · exact .inl ⟨hs,hxa⟩
      · exact .inr ⟨not_lt.mp hxa,he⟩
  · rw [protectParts_apart flags ho]
    exact ⟨_,List.mem_singleton_self _,hs,he⟩

theorem protectParts_place (hab : a < b) (hkey : vma.startVaddr = i)
    (he : e ∈ protectParts a b flags i vma) (hx : Within e.2 x) :
    e.1 = if ¬ Overlaps vma a b ∨ x < a then i else if b ≤ x then b else max a i := by
  have hx' : e.2.startVaddr ≤ x ∧ x < e.2.endVaddr := hx
  rcases protectParts_piece flags hkey he with ⟨ho,rfl⟩ | ⟨ho,hs,hpiece⟩
  · rw [if_pos (.inl ho)]
  · simp only [ho,not_true_eq_false,false_or]
    split_ifs <;> omega

theorem protectParts_page {page : Page} :
    (∃ e ∈ protectParts a b flags i vma, e.2.pma.pageManager[v]? = some page) ↔
      vma.pma.pageManager[v]? = some page := by
  have split : ∀ (x : VirtMemoryAddr) (pos : ℕ),
      ((leftPart x pos).pma.pageManager[v]? = some page ∨
        (rightPart x pos).pma.pageManager[v]? = some page) ↔
      x.pma.pageManager[v]? = some page := by
    intro x pos
    change (carve _ _ _)[v]? = _ ∨ (slice _ _ _)[v]? = _ ↔ _
    rw [getElem?_carve,getElem?_slice]
    split <;> simp
  by_cases ho : Overlaps vma a b
  · rcases protectParts_cases (i := i) flags ho with ⟨-,-,hp⟩ | ⟨-,-,hp⟩ | ⟨-,-,hp⟩ |
      ⟨-,-,hp⟩ <;> simp only [hp,List.exists_mem_cons_iff,List.not_mem_nil,false_and,
        exists_false,or_false]
    · exact split vma b
    · exact Iff.rfl
    · rw [← split vma b,← split (leftPart vma b) a]
      tauto
    · exact split vma a
  · rw [protectParts_apart flags ho]
    simp

end Pieces

section Rounds

variable (flags : MapPermission)

theorem replaceFlags_twice (hp : p < 2 ^ 64) (fl : PTEFlags) :
    PageTable.replaceFlags (PageTable.replaceFlags p fl) fl = PageTable.replaceFlags p fl := by
  apply Nat.eq_of_testBit_eq
  intro k
  rw [testBit_replaceFlags (replaceFlags_lt hp fl),testBit_replaceFlags hp]
  split <;> rfl

def Changed (a b : ℕ) (areas : VmaRange) (l : List ℕ) (v : ℕ) : Prop :=
  ∃ i ∈ l, ∃ vma, areas[i]? = some vma ∧ (protectedPages vma a b)[v]? ≠ none

theorem protectAt_pte (hi : w.areas[i]? = some vma) :
    (protectAt a b flags w i).pte = reflag w.pte (protectedPages vma a b) flags := by
  unfold protectAt
  rw [hi]

theorem protectRounds_pte (sep : Separate w.areas (protectParts a b flags))
    (words : ∀ v p, w.pte v = some p → p < 2 ^ 64) (l : List ℕ) (nodup : l.Nodup)
    (present : ∀ i ∈ l, w.areas[i]? ≠ none) (v : ℕ) :
    (Changed a b w.areas l v → (l.foldl (protectAt a b flags) w).pte v =
      (w.pte v).map fun p => PageTable.replaceFlags p (pteFlagsFrom flags)) ∧
    (¬ Changed a b w.areas l v → (l.foldl (protectAt a b flags) w).pte v = w.pte v) := by
  induction l using List.reverseRecOn with
  | nil =>
    refine ⟨?_,fun _ => rfl⟩
    rintro ⟨i,hi,-⟩
    cases hi
  | append_singleton l i ih =>
    have hi : i ∉ l := by
      intro hc
      exact (List.nodup_append.mp nodup).2.2 i hc i (by simp) rfl
    have ih := ih (List.nodup_append.mp nodup).1
      (fun j hj => present j (List.mem_append_left _ hj))
    obtain ⟨vma,hvma⟩ := Option.ne_none_iff_exists'.mp (present i (by simp))
    have hstill : (l.foldl (protectAt a b flags) w).areas[i]? = some vma := by
      rw [rounds_areas]
      exact expand_rounds_other sep (List.nodup_append.mp nodup).1
        (fun j hj => present j (List.mem_append_left _ hj)) hvma hi
    have hstep : ((l ++ [i]).foldl (protectAt a b flags) w).pte v =
        reflag (l.foldl (protectAt a b flags) w).pte (protectedPages vma a b) flags v := by
      rw [List.foldl_append,List.foldl_cons,List.foldl_nil,protectAt_pte flags hstill]
    have hchanged : Changed a b w.areas (l ++ [i]) v ↔
        Changed a b w.areas l v ∨ (protectedPages vma a b)[v]? ≠ none := by
      unfold Changed
      simp only [List.mem_append,List.mem_singleton,or_and_right,exists_or,exists_eq_left,hvma,
        Option.some.injEq,exists_eq_left']
    rw [hstep,hchanged]
    unfold reflag
    by_cases hold : Changed a b w.areas l v
    · rw [ih.1 hold]
      refine ⟨fun _ => ?_,fun hc => (hc (.inl hold)).elim⟩
      split
      · rfl
      · cases hp : w.pte v with
        | none => rfl
        | some p => simp [replaceFlags_twice (words v p hp)]
    · rw [ih.2 hold]
      constructor
      · intro hnew
        rw [if_neg (hnew.resolve_left hold)]
      · intro hnone
        rw [if_pos (not_not.mp fun hc => hnone (.inr hc))]

theorem protectAt_other {j : ℕ}
    (far : ∀ vma, w.areas[i]? = some vma → j ∉ (protectParts a b flags i vma).map (·.1)) :
    (protectAt a b flags w i).areas[j]? = w.areas[j]? := by
  rw [protectAt_areas]
  cases hi : w.areas[i]? with
  | none =>
    unfold expandAt
    rw [hi]
  | some vma => rw [expandAt_some hi,insertEntries_other (far vma hi)]

theorem protectAt_pte_none (i v : ℕ) : (protectAt a b flags w i).pte v = none ↔ w.pte v = none := by
  unfold protectAt
  cases w.areas[i]? with
  | none => rfl
  | some vma =>
    change reflag _ _ _ v = none ↔ _
    unfold reflag
    split <;> simp

theorem roundsModify_iff : ∀ (l : List ℕ) (w : View), l.Nodup →
    (∀ i ∈ l, ∀ j ∈ l, i ≠ j → ∀ vma, w.areas[i]? = some vma →
      j ∉ (protectParts a b flags i vma).map (·.1)) →
    (RoundsModify a b flags w l ↔
      ∀ i ∈ l, ∀ vma, w.areas[i]? = some vma → ModifyReady vma a b w.pte) := by
  intro l
  induction l with
  | nil => simp [RoundsModify]
  | cons i l ih =>
    intro w nodup far
    obtain ⟨hi,hl⟩ := List.nodup_cons.mp nodup
    have hsame : ∀ j ∈ l, (protectAt a b flags w i).areas[j]? = w.areas[j]? := by
      intro j hj
      refine protectAt_other flags fun vma hvma => far i (by simp) j (by simp [hj]) ?_ vma hvma
      rintro rfl
      exact hi hj
    have hready : ∀ vma, ModifyReady vma a b (protectAt a b flags w i).pte ↔
        ModifyReady vma a b w.pte := by
      intro vma
      have hentered : ∀ pages, Entered pages (protectAt a b flags w i).pte ↔
          Entered pages w.pte := by
        intro pages
        refine forall_congr' fun v => imp_congr_right fun _ => ?_
        exact not_congr (protectAt_pte_none flags i v)
      exact ⟨fun h => ⟨h.splits,(hentered _).mp h.entries⟩,
        fun h => ⟨h.splits,(hentered _).mpr h.entries⟩⟩
    have hfar : ∀ i' ∈ l, ∀ j ∈ l, i' ≠ j →
        ∀ vma, (protectAt a b flags w i).areas[i']? = some vma →
          j ∉ (protectParts a b flags i' vma).map (·.1) := by
      intro i' hi' j hj hne vma hvma
      rw [hsame i' hi'] at hvma
      exact far i' (by simp [hi']) j (by simp [hj]) hne vma hvma
    simp only [RoundsModify,List.forall_mem_cons,ih _ hl hfar,hready]
    refine and_congr_right fun _ => forall_congr' fun j => forall_congr' fun hj => ?_
    rw [hsame j hj]

end Rounds

section Outcome

def Covered (areas : VmaRange) (x : ℕ) : Prop :=
  ∃ (k : ℕ) (vma : VirtMemoryAddr), areas[k]? = some vma ∧ Within vma x

def HoldsPage (areas : VmaRange) (v : ℕ) (page : Page) : Prop :=
  ∃ (k : ℕ) (vma : VirtMemoryAddr), areas[k]? = some vma ∧ vma.pma.pageManager[v]? = some page

/-- The range has the new permission, in the segments and in the entries, and nothing else is
changed. -/
structure Protected (w w' : View) (a b : ℕ) (flags : MapPermission) : Prop where
  covered : ∀ x, Covered w'.areas x ↔ Covered w.areas x
  keyed : Keyed w'.areas
  aligned : Aligned w'.areas
  apart : Apart w'.areas
  permission : ∀ (k : ℕ) (vma : VirtMemoryAddr) (x : ℕ), w'.areas[k]? = some vma → Within vma x →
    ∃ (k₀ : ℕ) (vma₀ : VirtMemoryAddr), w.areas[k₀]? = some vma₀ ∧ Within vma₀ x ∧
      vma.mapPermission = if a ≤ x ∧ x < b then flags else vma₀.mapPermission
  resident : ∀ v page, HoldsPage w.areas v page → HoldsPage w'.areas v page
  inside : ∀ v p, w.pte v = some p → a ≤ v * 4096 → v * 4096 < b → ∃ p', w'.pte v = some p' ∧
    ∀ n, p'.testBit n =
      if 1 ≤ n ∧ n ≤ 4 then (pteFlagsFrom flags).getLsbD n else p.testBit n
  outside : ∀ v, ¬ (a ≤ v * 4096 ∧ v * 4096 < b) → w'.pte v = w.pte v

def Carries (p : ℕ) (flags : MapPermission) : Prop :=
  ∀ n, 1 ≤ n → n ≤ 4 → p.testBit n = (pteFlagsFrom flags).getLsbD n

/-- A page whose entry is given the new flags. A segment that starts in the range hands over
all the pages it holds, except for those it keeps behind the range. -/
def Touched (vma : VirtMemoryAddr) (a b v : ℕ) : Prop :=
  Overlaps vma a b ∧ vma.pma.pageManager[v]? ≠ none ∧
    if vma.startVaddr < a then a / 4096 ≤ v ∧ v < min b vma.endVaddr / 4096
    else ¬ (b / 4096 ≤ v ∧ v < vma.endVaddr / 4096)

/-- The addresses that are checked when a segment is cut at the bounds. -/
def CutsAccepted (vma : VirtMemoryAddr) (a b : ℕ) : Prop :=
  (vma.startVaddr < a → checkUserVa a = true ∧ checkUserVa vma.endVaddr = true) ∧
    (b < vma.endVaddr → checkUserVa b = true ∧ checkUserVa vma.endVaddr = true)

/-- The addresses at which segments are cut are accepted, and the entries that do not have the
new bits yet are given new flags exactly in the range. -/
structure ProtectFits (w : View) (a b : ℕ) (flags : MapPermission) : Prop where
  cuts : ∀ (k : ℕ) (vma : VirtMemoryAddr), w.areas[k]? = some vma → Overlaps vma a b →
    CutsAccepted vma a b
  entries : ∀ v p, w.pte v = some p → ¬ Carries p flags →
    ((∃ (k : ℕ) (vma : VirtMemoryAddr), w.areas[k]? = some vma ∧ Touched vma a b v) ↔
      a ≤ v * 4096 ∧ v * 4096 < b)

theorem replaceFlags_eq_iff (hp : p < 2 ^ 64) (flags : MapPermission) :
    PageTable.replaceFlags p (pteFlagsFrom flags) = p ↔ Carries p flags := by
  constructor
  · intro h n h₁ h₂
    have hn := testBit_replaceFlags hp (pteFlagsFrom flags) n
    rwa [h,if_pos ⟨h₁,h₂⟩] at hn
  · intro h
    apply Nat.eq_of_testBit_eq
    intro n
    rw [testBit_replaceFlags hp]
    split_ifs with hn
    · exact (h n hn.1 hn.2).symm
    · rfl

theorem touched_iff (v : ℕ) :
    (protectedPages vma a b)[v]? ≠ none ↔ Touched vma a b v := by
  by_cases ho : Overlaps vma a b
  · obtain ⟨hs,he⟩ := overlaps_iff.mp ho
    unfold Touched
    by_cases ha : a ≤ vma.startVaddr <;> by_cases hb : b < vma.endVaddr
    · rw [protectedPages_left ho ha hb,if_neg (not_lt.mpr ha)]
      change (carve _ _ _)[v]? ≠ none ↔ _
      rw [getElem?_carve]
      split <;> simp_all
    · have hb' := not_lt.mp hb
      rw [protectedPages_whole ho ha hb',if_neg (not_lt.mpr ha)]
      simp only [ho,true_and]
      exact ⟨fun h => ⟨h,by omega⟩,fun h => h.1⟩
    · have ha' := not_le.mp ha
      rw [protectedPages_inside ho ha' hb,if_pos ha',min_eq_left hb.le]
      change (slice (carve _ _ _) _ _)[v]? ≠ none ↔ _
      rw [getElem?_slice,getElem?_carve]
      change (if a / 4096 ≤ v ∧ v < b / 4096 then _ else _) ≠ none ↔ _
      by_cases hv : a / 4096 ≤ v ∧ v < b / 4096
      · rw [if_pos hv,if_neg (by omega)]
        simp [ho,hv]
      · rw [if_neg hv]
        simp [hv]
    · have ha' := not_le.mp ha
      have hb' := not_lt.mp hb
      rw [protectedPages_right ho ha' hb',if_pos ha',min_eq_right hb']
      change (slice _ _ _)[v]? ≠ none ↔ _
      rw [getElem?_slice]
      split <;> simp_all
  · unfold protectedPages Touched
    simp [ho]

theorem pteAt_word (h : pteAt m root v = some p) : p < 2 ^ 64 := by
  unfold pteAt at h
  split at h
  · obtain ⟨f,-,hf⟩ := Option.bind_eq_some_iff.mp h
    rw [Option.ite_none_right_eq_some,Option.some.injEq] at hf
    rw [← hf.2]
    exact pteWord_lt m f _
  · cases h

theorem numbered_of_entered {pages : BTreeMap Page} (h : Entered pages (pteAt m root)) :
    Numbered pages := by
  intro v hv
  have hpte := h v hv
  unfold pteAt at hpte
  split_ifs at hpte with hc
  · have hlt := checkUserVa_lt hc
    omega
  · exact (hpte rfl).elim

/-- The pages between the cuts are pages of the segment, so only the cuts are left. -/
theorem modifyReady_iff_moved (hab : a < b) (ho : Overlaps vma a b)
    (entered : Entered vma.pma.pageManager pte) :
    ModifyReady vma a b pte ↔ CutsAccepted vma a b ∧ MovedResident vma a b := by
  have hsplits : ModifyReady vma a b pte ↔ ProtectReady vma a b :=
    ⟨ModifyReady.splits,fun h => ⟨h,fun v hv => entered v ((touched_iff v).mp hv).2.1⟩⟩
  rw [hsplits]
  by_cases ha : a ≤ vma.startVaddr <;> by_cases hb : b < vma.endVaddr
  · rw [movedResident_of_le ha]
    constructor
    · intro h
      have hsplit := h.right ho hb
      exact ⟨⟨fun hc => absurd hc (not_lt.mpr ha),fun _ => ⟨hsplit.cut,hsplit.limit⟩⟩,
        hsplit.resident⟩
    · rintro ⟨⟨-,hcut⟩,hmoved⟩
      exact ⟨fun _ _ => ⟨(hcut hb).1,(hcut hb).2,hmoved⟩,fun _ h' => by omega,
        fun _ h' => by omega⟩
  · rw [movedResident_of_le ha]
    exact ⟨fun _ => ⟨⟨fun hc => absurd hc (not_lt.mpr ha),fun hc => absurd hc hb⟩,
      fun v h₁ h₂ => by omega⟩,fun _ => ⟨fun _ h' => absurd h' hb,fun _ h' => by omega,
      fun _ h' => by omega⟩⟩
  · have ha' := not_le.mp ha
    rw [movedResident_of_start ha',← leftPart_resident hab.le hb]
    constructor
    · intro h
      have houter := h.right ho hb
      have hinner := h.inner ho ha' hb
      exact ⟨⟨fun _ => ⟨hinner.cut,houter.limit⟩,fun _ => ⟨houter.cut,houter.limit⟩⟩,
        houter.resident,hinner.resident⟩
    · rintro ⟨⟨hleft,hright⟩,hmoved⟩
      exact ⟨fun _ _ => ⟨(hright hb).1,(hright hb).2,hmoved.1⟩,
        fun _ _ _ => ⟨(hleft ha').1,(hright hb).1,hmoved.2⟩,fun _ _ h' => by omega⟩
  · have ha' := not_le.mp ha
    rw [movedResident_of_start ha']
    constructor
    · intro h
      have hsplit := h.left ho ha' (not_lt.mp hb)
      exact ⟨⟨fun _ => ⟨hsplit.cut,hsplit.limit⟩,fun hc => absurd hc hb⟩,hsplit.resident⟩
    · rintro ⟨⟨hcut,-⟩,hmoved⟩
      exact ⟨fun _ h' => absurd h' hb,fun _ _ h' => absurd h' hb,
        fun _ _ _ => ⟨(hcut ha').1,(hcut ha').2,hmoved⟩⟩

theorem modifyReady_iff_accepted (hab : a < b) (ho : Overlaps vma a b)
    (populated : ∀ v, vma.startVaddr / 4096 ≤ v → v < vma.endVaddr / 4096 →
      vma.pma.pageManager[v]? ≠ none) (entered : Entered vma.pma.pageManager pte) :
    ModifyReady vma a b pte ↔ CutsAccepted vma a b := by
  rw [modifyReady_iff_moved hab ho entered]
  exact and_iff_left (movedResident_of_populated (overlaps_iff.mp ho).1 populated)

section Views

variable (hab : a < b) (keyed : Keyed w.areas) (apart : Apart w.areas)
  (outside : NoneInside w.areas) (flags : MapPermission)

include hab keyed apart outside

theorem protect_areas_iff (k : ℕ) (part : VirtMemoryAddr) :
    (View.protect w a b flags).areas[k]? = some part ↔
      ∃ (i : ℕ) (vma : VirtMemoryAddr), w.areas[i]? = some vma ∧
        (k, part) ∈ protectParts a b flags i vma := by
  unfold View.protect
  rw [rounds_areas]
  refine expand_union (protectParts_separate flags hab keyed apart outside)
    (overlapKeys_nodup _ _ _) ?_ ?_ k part
  · intro i hi
    obtain ⟨vma,hvma,-⟩ := mem_overlapKeys.mp hi
    simp [hvma]
  · intro i vma hvma hi
    exact protectParts_apart flags fun ho => hi (mem_overlapKeys.mpr ⟨vma,hvma,ho⟩)

theorem protect_pte_cases (words : ∀ v p, w.pte v = some p → p < 2 ^ 64) (v : ℕ) :
    ((∃ (k : ℕ) (vma : VirtMemoryAddr), w.areas[k]? = some vma ∧ Touched vma a b v) →
      (View.protect w a b flags).pte v =
        (w.pte v).map fun p => PageTable.replaceFlags p (pteFlagsFrom flags)) ∧
    ((¬ ∃ (k : ℕ) (vma : VirtMemoryAddr), w.areas[k]? = some vma ∧ Touched vma a b v) →
      (View.protect w a b flags).pte v = w.pte v) := by
  have hchanged : Changed a b w.areas (overlapKeys w.areas a b) v ↔
      ∃ (k : ℕ) (vma : VirtMemoryAddr), w.areas[k]? = some vma ∧ Touched vma a b v := by
    constructor
    · rintro ⟨i,-,vma,hvma,hv⟩
      exact ⟨i,vma,hvma,(touched_iff v).mp hv⟩
    · rintro ⟨i,vma,hvma,hv⟩
      exact ⟨i,mem_overlapKeys.mpr ⟨vma,hvma,hv.1⟩,vma,hvma,(touched_iff v).mpr hv⟩
  rw [← hchanged]
  refine protectRounds_pte flags (protectParts_separate flags hab keyed apart outside) words _
    (overlapKeys_nodup _ _ _) ?_ v
  intro i hi
  obtain ⟨vma,hvma,-⟩ := mem_overlapKeys.mp hi
  simp [hvma]

theorem protect_ready_iff :
    RoundsModify a b flags w (overlapKeys w.areas a b) ↔
      ∀ (k : ℕ) (vma : VirtMemoryAddr), w.areas[k]? = some vma → Overlaps vma a b →
        ModifyReady vma a b w.pte := by
  have sep := protectParts_separate flags hab keyed apart outside
  rw [roundsModify_iff flags _ _ (overlapKeys_nodup _ _ _)]
  · constructor
    · exact fun h k vma hk ho => h k (mem_overlapKeys.mpr ⟨vma,hk,ho⟩) vma hk
    · intro h i hi vma hvma
      obtain ⟨vma',hvma',ho⟩ := mem_overlapKeys.mp hi
      rw [hvma] at hvma'
      cases hvma'
      exact h i vma hvma ho
  · intro i _ j hj hne vma hvma hc
    obtain ⟨vma',hvma',-⟩ := mem_overlapKeys.mp hj
    exact hne (sep.apart i j vma vma' j hvma hvma' hc (sep.own j vma' hvma'))

theorem protect_segments (ha : 4096 ∣ a) (hb : 4096 ∣ b) (aligned : Aligned w.areas)
    (hin : ∀ v p, w.pte v = some p → a ≤ v * 4096 → v * 4096 < b →
      ∃ p', (View.protect w a b flags).pte v = some p' ∧ ∀ n, p'.testBit n =
        if 1 ≤ n ∧ n ≤ 4 then (pteFlagsFrom flags).getLsbD n else p.testBit n)
    (hout : ∀ v, ¬ (a ≤ v * 4096 ∧ v * 4096 < b) → (View.protect w a b flags).pte v = w.pte v) :
    Protected w (View.protect w a b flags) a b flags := by
  have hiff := protect_areas_iff hab keyed apart outside flags
  refine ⟨?_,?_,?_,?_,?_,?_,hin,hout⟩
  · intro x
    constructor
    · rintro ⟨k,part,hk,hx⟩
      obtain ⟨i,vma,hi,he⟩ := (hiff k part).mp hk
      exact ⟨i,vma,hi,(protectParts_within flags (keyed i vma hi) he hx).1⟩
    · rintro ⟨i,vma,hi,hx⟩
      obtain ⟨⟨k,part⟩,he,hx'⟩ := protectParts_covers (a := a) (b := b) (i := i) flags hx
      exact ⟨k,part,(hiff k part).mpr ⟨i,vma,hi,he⟩,hx'⟩
  · intro k part hk
    obtain ⟨i,vma,hi,he⟩ := (hiff k part).mp hk
    exact protectParts_start flags (keyed i vma hi) he
  · intro k part hk
    obtain ⟨i,vma,hi,he⟩ := (hiff k part).mp hk
    exact protectParts_aligned flags (keyed i vma hi) ha hb (aligned i vma hi) he
  · intro k k' part part' hk hk' x hx hx'
    obtain ⟨i,vma,hi,he⟩ := (hiff k part).mp hk
    obtain ⟨j,vma',hj,he'⟩ := (hiff k' part').mp hk'
    have hij := apart i j vma vma' hi hj x (protectParts_within flags (keyed i vma hi) he hx).1
      (protectParts_within flags (keyed j vma' hj) he' hx').1
    subst hij
    rw [hi] at hj
    cases hj
    exact (protectParts_place flags hab (keyed i vma hi) he hx).trans
      (protectParts_place flags hab (keyed i vma hi) he' hx').symm
  · intro k part x hk hx
    obtain ⟨i,vma,hi,he⟩ := (hiff k part).mp hk
    obtain ⟨hin',hperm⟩ := protectParts_within flags (keyed i vma hi) he hx
    exact ⟨i,vma,hi,hin',hperm⟩
  · rintro v page ⟨i,vma,hi,hv⟩
    obtain ⟨⟨k,part⟩,he,hpage⟩ :=
      (protectParts_page (a := a) (b := b) (i := i) flags).mpr hv
    exact ⟨k,part,(hiff k part).mpr ⟨i,vma,hi,he⟩,hpage⟩

end Views

end Outcome

/-- `mprotect` returns and does to the range, and only to the range, what it should, exactly
when the addresses at which it cuts are accepted and the entries it changes are those in the
range. -/
theorem mprotect_protects_iff (root : ℕ) (K : ℕ → Prop) (ext : ℕ → ℕ) (areas : VmaRange)
    (pt : PageTable) (m : Machine) (space : Space m pt root K (areasHeld areas) ext)
    (keyed : Keyed areas) (aligned : Aligned areas) (apart : Apart areas)
    (outside : NoneInside areas) (a b : ℕ) (ha : 4096 ∣ a) (hb : 4096 ∣ b) (hab : a < b)
    (flags : MapPermission)
    (entered : ∀ (k : ℕ) (vma : VirtMemoryAddr), areas[k]? = some vma →
      Entered vma.pma.pageManager (pteAt m root))
    (populated : ∀ (k : ℕ) (vma : VirtMemoryAddr), areas[k]? = some vma → Overlaps vma a b →
      ∀ v, vma.startVaddr / 4096 ≤ v → v < vma.endVaddr / 4096 →
        vma.pma.pageManager[v]? ≠ none) :
    (∃ areas' m', VmaRange.mprotect areas a b flags pt m = .ok areas' m' ∧
      Protected (viewOf areas m root) (viewOf areas' m' root) a b flags) ↔
      ProtectFits (viewOf areas m root) a b flags := by
  have hnum : AllNumbered areas := fun k vma hk => numbered_of_entered (entered k vma hk)
  have spec := mprotect_space (a := a) (b := b) (h := fun _ => 0) flags areas hnum
    (space.held_congr fun p => by omega)
  have ready := protect_ready_iff (w := viewOf areas m root) hab keyed apart outside flags
  have ptes := protect_pte_cases (w := viewOf areas m root) hab keyed apart outside flags
    fun v p hp => pteAt_word hp
  constructor
  · rintro ⟨areas',m',hrun,done⟩
    obtain ⟨hready,hreach⟩ := spec.of_ok hrun
    have hview := hreach.view
    rw [hview] at done
    refine ⟨fun k vma hk ho => ?_,fun v p hp hcarries => ?_⟩
    · exact (modifyReady_iff_accepted hab ho (populated k vma hk ho) (entered k vma hk)).mp
        (ready.mp hready k vma hk ho)
    · have hword : p < 2 ^ 64 := pteAt_word hp
      constructor
      · intro htouched
        by_contra hv
        have hsame := done.outside v hv
        rw [(ptes v).1 htouched,hp,Option.map_some,Option.some.injEq] at hsame
        exact hcarries ((replaceFlags_eq_iff hword flags).mp hsame)
      · rintro ⟨h₁,h₂⟩
        by_contra htouched
        obtain ⟨p',hp',hbits⟩ := done.inside v p hp h₁ h₂
        rw [(ptes v).2 htouched,hp,Option.some.injEq] at hp'
        subst hp'
        refine hcarries fun n h₃ h₄ => ?_
        rw [hbits n,if_pos ⟨h₃,h₄⟩]
  · intro fits
    have hready : RoundsModify a b flags (viewOf areas m root) (overlapKeys areas a b) := by
      refine ready.mpr fun k vma hk ho => ?_
      exact (modifyReady_iff_accepted hab ho (populated k vma hk ho) (entered k vma hk)).mpr
        (fits.cuts k vma hk ho)
    obtain ⟨areas',m',hrun,-,hreach⟩ :=
      (spec.onError fun _ _ hn => hn hab.le hready).returns
    refine ⟨areas',m',hrun,?_⟩
    rw [hreach.view]
    refine protect_segments hab keyed apart outside flags ha hb aligned ?_ ?_
    · intro v p hp h₁ h₂
      have hword : p < 2 ^ 64 := pteAt_word hp
      by_cases htouched : ∃ (k : ℕ) (vma : VirtMemoryAddr), areas[k]? = some vma ∧
          Touched vma a b v
      · refine ⟨_,?_,fun n => testBit_replaceFlags hword (pteFlagsFrom flags) n⟩
        rw [(ptes v).1 htouched,hp]
        rfl
      · have hcarries : Carries p flags := by
          by_contra hc
          exact htouched ((fits.entries v p hp hc).mpr ⟨h₁,h₂⟩)
        refine ⟨p,(ptes v).2 htouched ▸ hp,fun n => ?_⟩
        split_ifs with hn
        · exact hcarries n hn.1 hn.2
        · rfl
    · intro v hv
      by_cases htouched : ∃ (k : ℕ) (vma : VirtMemoryAddr), areas[k]? = some vma ∧
          Touched vma a b v
      · rw [(ptes v).1 htouched]
        cases hp : (viewOf areas m root).pte v with
        | none => rfl
        | some p =>
          have hcarries : Carries p flags := by
            by_contra hc
            exact hv ((fits.entries v p hp hc).mp htouched)
          rw [Option.map_some,(replaceFlags_eq_iff (pteAt_word hp) flags).mpr hcarries]
      · exact (ptes v).2 htouched

def allEntered (p : Process) (m : Machine) : Bool :=
  p.vm.areas.toList.all fun e => e.2.pma.pageManager.toList.all fun q =>
    (pteAt m (p.vm.pt.rootPaddr / 4096) q.1).isSome

theorem allEntered_segment {p : Process} (h : allEntered p m = true)
    (hk : p.vm.areas[k]? = some vma) :
    Entered vma.pma.pageManager (pteAt m (p.vm.pt.rootPaddr / 4096)) := by
  intro v hv
  obtain ⟨page,hpage⟩ := Option.ne_none_iff_exists'.mp hv
  exact Option.isSome_iff_ne_none.mp (all_toList (all_toList h hk) hpage)

def heldBy (areas : VmaRange) (k v : ℕ) : Bool :=
  (areas[k]?.bind fun vma => vma.pma.pageManager[v]?).isSome

theorem heldBy_elim (h : heldBy areas k v = true) :
    ∃ vma, areas[k]? = some vma ∧ vma.pma.pageManager[v]? ≠ none := by
  obtain ⟨page,hpage⟩ := Option.isSome_iff_exists.mp h
  obtain ⟨vma,hvma,hv⟩ := Option.bind_eq_some_iff.mp hpage
  exact ⟨vma,hvma,by simp [hv]⟩

section

variable (h : onlyAdjacent areas = true)
include h

theorem adjacent_keyed : Keyed areas :=
  fun _ _ hk => (onlyAdjacent_segment h hk).1.symm

theorem adjacent_noneInside : NoneInside areas := by
  intro k k' vma vma' hk hk' hempty
  have hsize := (onlyAdjacent_segment h hk).2.1
  omega

theorem adjacent_overlap (hk : areas[k]? = some vma) (ho : Overlaps vma 0x10000 0x11000) :
    k = 0x10000 ∧ vma.startVaddr = 0x10000 ∧ vma.endVaddr = 0x11000 := by
  obtain ⟨hkey,hsize,hwhere⟩ := onlyAdjacent_segment h hk
  have hov := overlaps_iff.mp ho
  omega

theorem adjacent_populated (held : heldBy areas 0x10000 0x10 = true)
    (hk : areas[k]? = some vma) (ho : Overlaps vma 0x10000 0x11000) :
    ∀ v, vma.startVaddr / 4096 ≤ v → v < vma.endVaddr / 4096 →
      vma.pma.pageManager[v]? ≠ none := by
  obtain ⟨rfl,hstart,hend⟩ := adjacent_overlap h hk ho
  obtain ⟨vma',hvma',hpage⟩ := heldBy_elim held
  rw [hk] at hvma'
  cases hvma'
  intro v h₁ h₂
  have hv : v = 0x10 := by omega
  rw [hv]
  exact hpage

end

def ownPages : List Call := adjacentPages ++ [.fault 0x10000, .fault 0x11800]

def strayPages : List Call := adjacentPages ++ [.fault 0x10000, .fault 0x11000]

def holdsOwn (areas : VmaRange) : Bool :=
  areas.toList.all fun e => e.2.pma.pageManager.toList.all fun q => q.1 * 4096 == e.1

theorem holdsOwn_page (h : holdsOwn areas = true) (hk : areas[k]? = some vma)
    (hv : vma.pma.pageManager[v]? ≠ none) : v * 4096 = k := by
  obtain ⟨page,hpage⟩ := Option.ne_none_iff_exists'.mp hv
  exact beq_iff_eq.mp (all_toList (all_toList h hk) hpage)

/-- The first of two pages, each held by its own segment, is made read-only. -/
theorem mprotect_protects_first : ∃ ms m₁ p m root areas' m',
    MemorySet.newUser (bootMachine 64) = .ok ms m₁ ∧
    Runs Call.exec (fun _ _ _ => True) ⟨ms, ∅⟩ m₁ p m ∧
    VmaRange.mprotect p.vm.areas 0x10000 0x11000 (MapPermission.R ||| MapPermission.U) p.vm.pt m =
      .ok areas' m' ∧
    Protected (viewOf p.vm.areas m root) (viewOf areas' m' root) 0x10000 0x11000
      (MapPermission.R ||| MapPermission.U) := by
  have computed : fromBoot 64 ownPages (fun p m => onlyAdjacent p.vm.areas && allEntered p m &&
      heldBy p.vm.areas 0x10000 0x10 && holdsOwn p.vm.areas) = true := by
    decide +kernel
  obtain ⟨root,K,ms,m₁,p,m,created,run,own,-,rfl,computed⟩ :=
    fromBoot_elim (by decide) computed
  simp only [Bool.and_eq_true] at computed
  obtain ⟨⟨⟨only,entered⟩,held⟩,hown⟩ := computed
  obtain ⟨ext,space⟩ := own.space
  have fits : ProtectFits (viewOf p.vm.areas m (p.vm.pt.rootPaddr / 4096)) 0x10000 0x11000
      (MapPermission.R ||| MapPermission.U) := by
    refine ⟨fun k vma hk ho => ?_,fun v _ _ _ => ⟨?_,?_⟩⟩
    · obtain ⟨-,hstart,hend⟩ := adjacent_overlap only hk ho
      exact ⟨fun hc => by omega,fun hc => by omega⟩
    · rintro ⟨k,vma,hk,ho,hv,-⟩
      obtain ⟨rfl,-,-⟩ := adjacent_overlap only hk ho
      have := holdsOwn_page hown hk hv
      omega
    · rintro ⟨h₁,h₂⟩
      have hv : v = 0x10 := by omega
      obtain ⟨vma,hk,hpage⟩ := heldBy_elim held
      obtain ⟨hkey,hsize,-⟩ := onlyAdjacent_segment only hk
      refine ⟨0x10000,vma,hk,overlaps_iff.mpr ⟨by omega,by omega⟩,hv ▸ hpage,?_⟩
      rw [if_neg (by omega)]
      omega
  obtain ⟨areas',m',hrun,done⟩ := (mprotect_protects_iff _ K ext p.vm.areas p.vm.pt m space
    (adjacent_keyed only) (onlyAdjacent_aligned only) (onlyAdjacent_apart only)
    (adjacent_noneInside only) 0x10000 0x11000 (by decide) (by decide) (by decide)
    (MapPermission.R ||| MapPermission.U) (fun _ _ hk => allEntered_segment entered hk)
    fun _ _ hk ho => adjacent_populated only held hk ho).mpr fits
  exact ⟨ms,m₁,p,m,_,areas',m',created,run,hrun,done⟩

/-- The page at the border is held by the lower segment, so making that segment read-only
changes an entry outside the range. -/
theorem mprotect_changes_outside : ∃ ms m₁ p m root ext K areas' m',
    MemorySet.newUser (bootMachine 64) = .ok ms m₁ ∧
    Runs Call.exec (fun _ _ _ => True) ⟨ms, ∅⟩ m₁ p m ∧
    Space m p.vm.pt root K (areasHeld p.vm.areas) ext ∧
    (Keyed p.vm.areas ∧ Aligned p.vm.areas ∧ Apart p.vm.areas ∧ NoneInside p.vm.areas) ∧
    (∀ (k : ℕ) (vma : VirtMemoryAddr), p.vm.areas[k]? = some vma →
      Entered vma.pma.pageManager (pteAt m root)) ∧
    (∀ (k : ℕ) (vma : VirtMemoryAddr), p.vm.areas[k]? = some vma →
      Overlaps vma 0x10000 0x11000 → ∀ v, vma.startVaddr / 4096 ≤ v →
        v < vma.endVaddr / 4096 → vma.pma.pageManager[v]? ≠ none) ∧
    VmaRange.mprotect p.vm.areas 0x10000 0x11000 (MapPermission.R ||| MapPermission.U) p.vm.pt m =
      .ok areas' m' ∧
    pteAt m' root 0x11 ≠ pteAt m root 0x11 := by
  have computed : fromBoot 64 strayPages (fun p m => onlyAdjacent p.vm.areas && allEntered p m &&
      heldBy p.vm.areas 0x10000 0x10 &&
      returnsWith (VmaRange.mprotect p.vm.areas 0x10000 0x11000
        (MapPermission.R ||| MapPermission.U) p.vm.pt) m fun _ m' =>
          decide (pteAt m' (p.vm.pt.rootPaddr / 4096) 0x11 ≠
            pteAt m (p.vm.pt.rootPaddr / 4096) 0x11)) = true := by
    decide +kernel
  obtain ⟨root,K,ms,m₁,p,m,created,run,own,-,rfl,computed⟩ :=
    fromBoot_elim (by decide) computed
  simp only [Bool.and_eq_true] at computed
  obtain ⟨⟨⟨only,entered⟩,held⟩,hrun⟩ := computed
  obtain ⟨ext,space⟩ := own.space
  obtain ⟨areas',m',hrun,hpte⟩ := returnsWith_elim hrun
  exact ⟨ms,m₁,p,m,_,ext,K,areas',m',created,run,space,
    ⟨adjacent_keyed only,onlyAdjacent_aligned only,onlyAdjacent_apart only,
      adjacent_noneInside only⟩,fun _ _ hk => allEntered_segment entered hk,
    fun _ _ hk ho => adjacent_populated only held hk ho,hrun,of_decide_eq_true hpte⟩

end DuckOs.ProtectedRanges
