import DuckOs.SegmentTables
import DuckOs.SegmentShapes

namespace DuckOs.GapSearch
open ExecutionRules AddressModel PermissionFlags KernelMachine VirtMemoryModel
open MemorySetModel MemorySyscalls SegmentViews SegmentShapes SpaceOperations SyscallSteps
open RangeRemoval SegmentTables BootMachine
open OrderedMaps

variable {areas : VmaRange} {a hint len x : ℕ}

/-- No segment overlaps the `len` bytes from `a` on. -/
def Free (areas : VmaRange) (a len : ℕ) : Prop :=
  ∀ (k : ℕ) (vma : VirtMemoryAddr), areas[k]? = some vma → ¬ Overlaps vma a (a + len)

/-- None of the sums that the scan makes on its way leaves the machine word. -/
def NoWrap (len : ℕ) : ℕ → List (ℕ × VirtMemoryAddr) → Prop
  | lastEnd, [] => lastEnd + len < wordSize
  | lastEnd, (start, vma) :: rest => lastEnd + len < wordSize ∧
      (start < lastEnd + len → NoWrap len (max lastEnd vma.endVaddr) rest)

theorem mem_keyed (keyed : Keyed areas) {e : ℕ × VirtMemoryAddr}
    (he : e ∈ areas.toList) : e.2.startVaddr = e.1 :=
  keyed e.1 e.2 (mem_toList.mp he)

theorem free_iff_toList : Free areas a len ↔ ∀ e ∈ areas.toList, ¬ Overlaps e.2 a (a + len) := by
  constructor
  · intro h e he
    exact h e.1 e.2 (mem_toList.mp he)
  · intro h k vma hk
    exact h (k, vma) (mem_toList.mpr hk)

theorem noWrap_some : ∀ (l : List (ℕ × VirtMemoryAddr)) (lastEnd : ℕ),
    NoWrap len lastEnd l → VmaRange.findAnywhereLoop len lastEnd l = some a →
      a + len < wordSize := by
  intro l
  induction l with
  | nil =>
    intro lastEnd hw ha
    simp only [VmaRange.findAnywhereLoop,Option.ite_none_right_eq_some,Option.some.injEq] at ha
    rw [← ha.2]
    exact hw
  | cons e rest ih =>
    intro lastEnd hw ha
    simp only [VmaRange.findAnywhereLoop,wrappingAdd_of_lt hw.1] at ha
    split at ha
    · cases ha
      exact hw.1
    · exact ih _ (hw.2 (by omega)) ha

theorem findAnywhereLoop_le (hx : x + len < wordSize) :
    ∀ (l : List (ℕ × VirtMemoryAddr)) (lastEnd : ℕ), (∀ e ∈ l, e.2.startVaddr = e.1) →
      (∀ e ∈ l, ¬ Overlaps e.2 x (x + len)) → lastEnd ≤ x →
      (∀ a, VmaRange.findAnywhereLoop len lastEnd l = some a → a ≤ x) ∧
        (VmaRange.findAnywhereLoop len lastEnd l = none → mmapTop < x + len) := by
  intro l
  induction l with
  | nil =>
    intro lastEnd _ _ hle
    have hsum : wrappingAdd lastEnd len = lastEnd + len := wrappingAdd_of_lt (by
      change _ < wordSize
      omega)
    simp only [VmaRange.findAnywhereLoop,hsum]
    split
    · simpa using hle
    · simp
      omega
  | cons e rest ih =>
    obtain ⟨start,vma⟩ := e
    intro lastEnd keyed free hle
    have hsum : wrappingAdd lastEnd len = lastEnd + len := wrappingAdd_of_lt (by
      change _ < wordSize
      omega)
    simp only [VmaRange.findAnywhereLoop,hsum]
    split
    · simpa using hle
    · have hstart : vma.startVaddr = start := keyed _ (List.mem_cons_self ..)
      have hfree : x + len ≤ vma.startVaddr ∨ vma.endVaddr ≤ x :=
        not_not.mp (free (start, vma) (List.mem_cons_self ..))
      apply ih
      · exact fun e he => keyed e (List.mem_cons_of_mem _ he)
      · exact fun e he => free e (List.mem_cons_of_mem _ he)
      · omega

theorem findAnywhere_free (keyed : Keyed areas)
    (ha : VmaRange.findAnywhere areas hint len = some a) (hlt : a + len < wordSize) :
    Free areas a len := by
  obtain ⟨-,-,pre,post,hl,hpre,hpost⟩ := findAnywhereLoop_some _ _ ha
  rw [wrappingAdd_of_lt hlt] at hpost
  rw [free_iff_toList]
  intro e he
  have hkey := mem_keyed keyed he
  have sorted := sorted_toList areas
  rw [hl] at he sorted
  rcases List.mem_append.mp he with hin | hin
  · exact not_not.mpr (.inr (hpre e hin))
  · apply not_not.mpr
    left
    cases post with
    | nil => cases hin
    | cons first rest =>
      rw [hkey]
      rcases List.mem_cons.mp hin with rfl | hlater
      · exact hpost
      · have hsorted := List.rel_of_pairwise_cons (List.pairwise_append.mp sorted).2.1 hlater
        exact hpost.trans hsorted.le

theorem findAnywhere_le (keyed : Keyed areas) (hx : x + len < wordSize)
    (hle : max hint mmapBottom ≤ x) (free : Free areas x len) :
    (∀ a, VmaRange.findAnywhere areas hint len = some a → a ≤ x) ∧
      (VmaRange.findAnywhere areas hint len = none → mmapTop < x + len) :=
  findAnywhereLoop_le hx areas.toList _ (fun _ he => mem_keyed keyed he)
    (free_iff_toList.mp free) hle

theorem findAnywhere_ge
    (ha : VmaRange.findAnywhere areas hint len = some a) : max hint mmapBottom ≤ a :=
  (findAnywhereLoop_some _ _ ha).1

/-- First fit: the address is the least one from the hint and the bottom of the mapping area
on at which no segment is in the way, and if there is no answer every such place ends above
the top. -/
theorem find_anywhere_first_fit (areas : VmaRange) (keyed : Keyed areas) (hint len : ℕ)
    (noWrap : NoWrap len (max hint mmapBottom) areas.toList) :
    (∀ a, VmaRange.findAnywhere areas hint len = some a →
      IsLeast {x | max hint mmapBottom ≤ x ∧ Free areas x len} a) ∧
    (VmaRange.findAnywhere areas hint len = none →
      ∀ x, max hint mmapBottom ≤ x → Free areas x len → mmapTop < x + len) := by
  constructor
  · intro a ha
    have hlt : a + len < wordSize := noWrap_some _ _ noWrap ha
    refine ⟨⟨findAnywhere_ge ha,findAnywhere_free keyed ha hlt⟩,?_⟩
    rintro x ⟨hle,free⟩
    by_contra hbelow
    have hx : x + len < wordSize := by omega
    exact hbelow ((findAnywhere_le keyed hx hle free).1 a ha)
  · intro hnone x hle free
    by_cases hx : x + len < wordSize
    · exact (findAnywhere_le keyed hx hle free).2 hnone
    · have htop : mmapTop < wordSize := by decide
      omega

def stackVma : VirtMemoryAddr :=
  freshVma (userStackTop - userStackSize) userStackTop
    (MapPermission.U ||| MapPermission.R ||| MapPermission.W) .framed .userStack (some .uStack) none

/-- The segments of a program that has only its stack and one mapped page. -/
def stackAndPage : VmaRange :=
  ((∅ : VmaRange).insert stackVma.startVaddr stackVma).insert mmapBottom
    (mmapVma mmapBottom (mmapBottom + 4096) 3 none)

theorem stackAndPage_keyed : Keyed stackAndPage := by
  apply forall_insert
  · apply forall_insert
    · simp
    · rfl
  · rfl

/-- A page is placed behind the mapped one. -/
theorem find_anywhere_behind_page : VmaRange.findAnywhere stackAndPage 0 4096 =
      some (mmapBottom + 4096) ∧
    IsLeast {x | max 0 mmapBottom ≤ x ∧ Free stackAndPage x 4096} (mmapBottom + 4096) := by
  have found : VmaRange.findAnywhere stackAndPage 0 4096 = some (mmapBottom + 4096) := by decide
  have noWrap : NoWrap 4096 (max 0 mmapBottom) stackAndPage.toList := by
    have hlist : stackAndPage.toList = [(mmapBottom, mmapVma mmapBottom (mmapBottom + 4096) 3 none),
      (stackVma.startVaddr, stackVma)] := rfl
    exact ⟨by decide,fun _ => ⟨by decide,fun h => absurd h (by decide)⟩⟩
  exact ⟨found,
    (find_anywhere_first_fit stackAndPage stackAndPage_keyed 0 4096 noWrap).1 _ found⟩

section Mmap

variable {p : Process} {addr length : ℕ} {flags : BitVec 32}

/-- The new segment lies in the mapping area, has the bytes asked for and overlaps none of the
segments that were there. -/
structure InWindow (p p' : Process) (a length : ℕ) : Prop where
  bottom : mmapBottom ≤ a
  top : a + length ≤ mmapTop
  placed : ∃ vma, p'.vm.areas[a]? = some vma ∧ vma.startVaddr ≤ a ∧ a + length ≤ vma.endVaddr ∧
    ∀ (k : ℕ) (other : VirtMemoryAddr), p.vm.areas[k]? = some other →
      ¬ Overlaps other vma.startVaddr vma.endVaddr

theorem new_yields (first last : ℕ) (permission : MapPermission) (vmaType : VmaType)
    (handler : Option PageFaultHandler) :
    Yields (VirtMemoryAddr.new first last permission .framed vmaType handler) fun vma =>
      vma = freshVma first last permission .framed vmaType handler none := by
  refine (alignDown_yields first).bind fun x hx => ?_
  refine (alignUp_yields last).bind fun y hy => yields_pure ?_
  rw [hx,hy]
  rfl

theorem mmapAlloc_anywhere (notFixed : isFixed flags = false) (vm : MemorySet)
    (permission : MapPermission) :
    Yields (mmapAlloc vm addr length (mmapFlagsUsed flags) permission) fun r => r.1 = vm ∧
      ∀ vma, r.2 = .ok vma → ∃ a, VmaRange.findAnywhere vm.areas addr length = some a ∧
        vma = freshVma a (wrappingAdd a length) permission .framed .mmap (some .mmap) none := by
  have hfixed : ¬ contains (mmapFlagsUsed flags) MmapFlags.MAP_FIXED = true :=
    Bool.eq_false_iff.mp notFixed
  unfold mmapAlloc MemorySet.allocVmaAnywhere
  rw [if_neg hfixed]
  cases VmaRange.findAnywhere vm.areas addr length with
  | none => exact yields_pure ⟨rfl,fun vma hr => (by cases hr)⟩
  | some a =>
    simp only [map_eq_pure_bind,bind_assoc,pure_bind]
    refine (new_yields a _ permission .mmap _).bind fun vma hvma => yields_pure ⟨rfl,?_⟩
    intro vma' hr
    cases hr
    exact ⟨a,rfl,hvma⟩

theorem mmapInstall_yields (p : Process) (vma : VirtMemoryAddr) (flags : MmapFlags)
    (fd offset : ℕ) :
    Yields (mmapInstall p vma flags fd offset) fun r => ∀ a, r.2 = .ok a → a = vma.startVaddr ∧
      ∃ file, r.1.vm.areas = p.vm.areas.insert a (MemorySet.withFile vma file) := by
  have installed : ∀ file, Yields (do
      let r ← p.vm.mmap vma file
      let start ← unwrap .unwrapNone r.2
      pure (({ p with vm := r.1 }, .ok start) : Process × SyscallResult)) fun r =>
        ∀ a, r.2 = .ok a → a = vma.startVaddr ∧
          ∃ file, r.1.vm.areas = p.vm.areas.insert a (MemorySet.withFile vma file) := by
    intro file
    unfold MemorySet.mmap MemorySet.pushNoMap VmaRange.insertRaw
    simp only [bind_assoc,pure_bind]
    refine (insertSegment_yields _ _ _).bind fun areas hareas => yields_pure ?_
    intro a ha
    cases ha
    have hstart : (MemorySet.withFile vma file).startVaddr = vma.startVaddr := by
      cases file <;> rfl
    exact ⟨rfl,file,hareas.trans (by rw [hstart])⟩
  unfold mmapInstall
  split
  · split
    · exact yields_pure fun a ha => (by cases ha)
    · exact installed none
  · split
    · exact yields_pure fun a ha => (by cases ha)
    · exact installed _

theorem sysMmap_anywhere (notFixed : isFixed flags = false) (prot : BitVec 32) (fd offset : ℕ) :
    Yields (sysMmap p addr length prot flags fd offset) fun r => ∀ a, r.2 = .ok a →
      mmapRejects addr length offset flags = false ∧
      ∃ s vma, VmaRange.findAnywhere p.vm.areas addr length = some s ∧ a = pageDown s ∧
        vma.startVaddr = pageDown s ∧ vma.endVaddr = pageUp (wrappingAdd s length) ∧
        r.1.vm.areas = p.vm.areas.insert a vma := by
  unfold sysMmap
  split_ifs with accepted
  · exact yields_pure fun a ha => (by cases ha)
  · refine (mmapAlloc_anywhere notFixed p.vm _).bind ?_
    intro r hr
    cases halloc : r.2 with
    | error e => exact yields_pure fun a ha => (by cases ha)
    | ok vma =>
      obtain ⟨s,hs,hvma⟩ := hr.2 vma halloc
      refine (mmapInstall_yields _ vma _ fd offset).imp fun r' hr' a ha => ?_
      obtain ⟨hstart,file,hareas⟩ := hr' a ha
      refine ⟨Bool.eq_false_iff.mpr accepted,s,MemorySet.withFile vma file,hs,?_,?_,?_,?_⟩
      · rw [hstart,hvma]
        rfl
      · rw [hvma]
        cases file <;> rfl
      · rw [hvma]
        cases file <;> rfl
      · rw [hareas,hr.1]

theorem findAnywhere_aligned (aligned : Aligned areas) (ha : 4096 ∣ addr)
    {s : ℕ} (hs : VmaRange.findAnywhere areas addr length = some s) : 4096 ∣ s := by
  obtain ⟨-,hend,-⟩ := findAnywhereLoop_some _ _ hs
  rcases hend with rfl | ⟨e,he,rfl⟩
  · have hb : 4096 ∣ mmapBottom := by decide
    rcases max_choice addr mmapBottom with h | h <;> rw [h] <;> assumption
  · exact (aligned e.1 e.2 (mem_toList.mp he)).2

theorem mmapRejects_addr {offset : ℕ} (h : mmapRejects addr length offset flags = false) :
    4096 ∣ addr := by
  simp only [mmapRejects,Bool.or_eq_false_iff,Bool.not_eq_false'] at h
  exact Nat.dvd_of_mod_eq_zero ((vaddrIsAlign_iff addr).mp h.1.2)

end Mmap

/-- A mapping without a fixed place lies in the mapping area, beside all other segments, exactly
when the area has room for it above the hint. -/
theorem mmap_in_window_iff (p p' : Process) (m m' : Machine) (keyed : Keyed p.vm.areas)
    (aligned : Aligned p.vm.areas) (addr length : ℕ) (prot flags : BitVec 32) (fd offset : ℕ)
    (notFixed : isFixed flags = false) (a : ℕ)
    (mapped : sysMmap p addr length prot flags fd offset m = .ok (p', .ok a) m') :
    InWindow p p' a length ↔
      ∃ x, max addr mmapBottom ≤ x ∧ x + length ≤ mmapTop ∧ Free p.vm.areas x length := by
  obtain ⟨accepted,s,vma,hs,ha,hfirst,hlast,hareas⟩ :=
    (sysMmap_anywhere notFixed prot fd offset).of_ok mapped a rfl
  have hdvd : 4096 ∣ s := findAnywhere_aligned aligned (mmapRejects_addr accepted) hs
  rw [pageDown_of_dvd hdvd] at ha hfirst
  subst ha
  have htop : mmapTop < wordSize := by decide
  constructor
  · intro inside
    have hlt : a + length < wordSize := inside.top.trans_lt htop
    exact ⟨a,findAnywhere_ge hs,inside.top,findAnywhere_free keyed hs hlt⟩
  · rintro ⟨x,hle,hx,free⟩
    have hax : a ≤ x := (findAnywhere_le keyed (hx.trans_lt htop) hle free).1 a hs
    have hlt : a + length < wordSize := by omega
    have hfree := findAnywhere_free keyed hs hlt
    rw [wrappingAdd_of_lt hlt] at hlast
    refine ⟨(le_max_right _ _).trans (findAnywhere_ge hs),by omega,vma,?_,hfirst.le,?_,?_⟩
    · rw [hareas,getElem?_insert,if_pos rfl]
    · rw [hlast]
      unfold pageUp
      omega
    · intro k other hk
      have hbeside : a + length ≤ other.startVaddr ∨ other.endVaddr ≤ a :=
        not_not.mp (hfree k other hk)
      have hwhole := (aligned k other hk).1
      apply not_not.mpr
      rw [hfirst,hlast]
      unfold pageUp
      omega

theorem stackAndPage_aligned : Aligned stackAndPage := by
  apply forall_insert
  · apply forall_insert
    · simp
    · decide
  · decide

/-- The process that has the stack and the page, and no open file. -/
def stackProcess (ms : MemorySet) : Process := ⟨{ ms with areas := stackAndPage }, ∅⟩

def mapsAt (x : Kernel (Process × SyscallResult)) (m : Machine) (a : ℕ) : Bool :=
  returnsWith x m fun r _ => decide (r.2.toOption = some a)

theorem mapsAt_elim {x : Kernel (Process × SyscallResult)} {m : Machine}
    (h : mapsAt x m a = true) : ∃ p' m', x m = .ok (p', .ok a) m' := by
  obtain ⟨⟨p',r⟩,m',hx,hr⟩ := returnsWith_elim h
  have hr := of_decide_eq_true hr
  cases r with
  | error e => cases hr
  | ok b =>
    cases hr
    exact ⟨p',m',hx⟩

/-- One page more is placed behind the mapped one. -/
theorem mmap_in_window_page : ∃ ms m m' p',
    MemorySet.newUser (bootMachine 64) = .ok ms m ∧
    sysMmap (stackProcess ms) 0 4096 3 0x22 0 0 m = .ok (p', .ok (mmapBottom + 4096)) m' ∧
    InWindow (stackProcess ms) p' (mmapBottom + 4096) 4096 := by
  have computed : returnsWith MemorySet.newUser (bootMachine 64) (fun ms m =>
      mapsAt (sysMmap (stackProcess ms) 0 4096 3 0x22 0 0) m (mmapBottom + 4096)) = true := by
    decide +kernel
  obtain ⟨ms,m,created,computed⟩ := returnsWith_elim computed
  obtain ⟨p',m',mapped⟩ := mapsAt_elim computed
  refine ⟨ms,m,m',p',created,mapped,?_⟩
  apply (mmap_in_window_iff (stackProcess ms) p' m m' stackAndPage_keyed stackAndPage_aligned
    0 4096 3 0x22 0 0 (by decide) _ mapped).mpr
  refine ⟨mmapBottom + 4096,by decide,by decide,?_⟩
  apply forall_insert
  · apply forall_insert
    · simp
    · decide
  · decide

/-- A length that wraps around is placed over the mapped page, whose segment is lost; one that
reaches above the mapping area is placed as well, because the stack comes behind it. -/
theorem mmap_leaves_window : ∃ ms m,
    MemorySet.newUser (bootMachine 64) = .ok ms m ∧
    (∃ p' m', sysMmap (stackProcess ms) 0 (2 ^ 64 - 4096) 3 0x22 0 0 m =
        .ok (p', .ok mmapBottom) m' ∧
      ¬ InWindow (stackProcess ms) p' mmapBottom (2 ^ 64 - 4096)) ∧
    ∃ p' m', sysMmap (stackProcess ms) 0 0x1100000 3 0x22 0 0 m =
        .ok (p', .ok (mmapBottom + 4096)) m' ∧
      ¬ InWindow (stackProcess ms) p' (mmapBottom + 4096) 0x1100000 := by
  have computed : returnsWith MemorySet.newUser (bootMachine 64) (fun ms m =>
      mapsAt (sysMmap (stackProcess ms) 0 (2 ^ 64 - 4096) 3 0x22 0 0) m mmapBottom &&
        mapsAt (sysMmap (stackProcess ms) 0 0x1100000 3 0x22 0 0) m (mmapBottom + 4096)) =
      true := by
    decide +kernel
  obtain ⟨ms,m,created,computed⟩ := returnsWith_elim computed
  obtain ⟨hwraps,habove⟩ := Bool.and_eq_true_iff.mp computed
  obtain ⟨p₁,m₁,hwraps⟩ := mapsAt_elim hwraps
  obtain ⟨p₂,m₂,habove⟩ := mapsAt_elim habove
  refine ⟨ms,m,created,⟨p₁,m₁,hwraps,?_⟩,p₂,m₂,habove,?_⟩
  · intro inside
    exact absurd inside.top (by decide)
  · intro inside
    exact absurd inside.top (by decide)

end DuckOs.GapSearch
