import DuckOs.SegmentShapes
import DuckOs.SyscallSteps

namespace DuckOs.FileOffsets
open ExecutionRules AddressModel PermissionFlags KernelMachine PageModel VirtMemoryModel
open MemorySetModel MemorySyscalls BootMachine SegmentViews SegmentProtect SpaceOperations
open SyscallSteps SegmentShapes OrderedMaps

variable {areas : VmaRange} {pos first last : ℕ}

def Covers (vma : VirtMemoryAddr) (va : ℕ) : Prop := vma.startVaddr ≤ va ∧ va < vma.endVaddr

/-- The file and the offset in it that the fault handler takes the page of an address from. -/
def shownAt (vma : VirtMemoryAddr) (va : ℕ) : Option (File × ℕ) :=
  vma.pma.backenFile.map fun b =>
    (b.file, wrappingAdd (wrappingAdd b.offset va) (wordSize - vma.startVaddr))

def ShowsAs (areas₀ areas : VmaRange) : Prop :=
  ∀ (k : ℕ) (vma : VirtMemoryAddr), areas[k]? = some vma → ∀ va, Covers vma va →
    ∃ (k₀ : ℕ) (vma₀ : VirtMemoryAddr), areas₀[k₀]? = some vma₀ ∧ Covers vma₀ va ∧
      shownAt vma va = shownAt vma₀ va

theorem ShowsAs.refl (areas : VmaRange) : ShowsAs areas areas :=
  fun k vma hk _ hc => ⟨k,vma,hk,hc,rfl⟩

theorem ShowsAs.trans {a b c : VmaRange} (h : ShowsAs a b) (h' : ShowsAs b c) : ShowsAs a c := by
  intro k vma hk va hc
  obtain ⟨k₁,vma₁,hk₁,hc₁,hs₁⟩ := h' k vma hk va hc
  obtain ⟨k₀,vma₀,hk₀,hc₀,hs₀⟩ := h k₁ vma₁ hk₁ va hc₁
  exact ⟨k₀,vma₀,hk₀,hc₀,hs₁.trans hs₀⟩

theorem ShowsAs.of_sameShape {areas' : VmaRange} (h : SameShape areas' areas) :
    ShowsAs areas areas' := by
  intro k vma hk va hc
  obtain ⟨vma₀,hk₀,hs⟩ := h.found hk
  refine ⟨k,vma₀,hk₀,?_,?_⟩
  · unfold Covers
    rw [← shape_start hs,← shape_end hs]
    exact hc
  · unfold shownAt
    rw [shape_start hs,shape_backing hs]

def PartOf (part vma : VirtMemoryAddr) : Prop :=
  ∀ va, Covers part va → Covers vma va ∧ shownAt part va = shownAt vma va

theorem partOf_refl (vma : VirtMemoryAddr) : PartOf vma vma := fun _ hc => ⟨hc,rfl⟩

theorem partOf_left (vma : VirtMemoryAddr) (h : pos ≤ vma.endVaddr) :
    PartOf (leftPart vma pos) vma :=
  fun _ hc => ⟨⟨hc.1,lt_of_lt_of_le hc.2 h⟩,rfl⟩

theorem partOf_right (vma : VirtMemoryAddr) (hfile : vma.pma.backenFile = none)
    (h : vma.startVaddr ≤ pos) : PartOf (rightPart vma pos) vma := by
  refine fun va hc => ⟨⟨le_trans h hc.1,hc.2⟩,?_⟩
  unfold shownAt
  rw [hfile]
  rfl

theorem partOf_emptied (vma : VirtMemoryAddr) : PartOf (emptied vma) vma := by
  intro va hc
  have hs := shape_emptied vma
  unfold Covers at hc ⊢
  rw [shape_start hs,shape_end hs] at hc
  refine ⟨hc,?_⟩
  unfold shownAt
  rw [shape_start hs,shape_backing hs]

section Cuts

variable {vma : VirtMemoryAddr} {a b : ℕ}

def EndsInside (a b : ℕ) (vma : VirtMemoryAddr) : Prop :=
  vma.pma.backenFile ≠ none → Overlaps vma a b → vma.endVaddr ≤ b

def Inside (a b : ℕ) (vma : VirtMemoryAddr) : Prop :=
  vma.pma.backenFile ≠ none → Overlaps vma a b → a ≤ vma.startVaddr ∧ vma.endVaddr ≤ b

theorem cutVma_parts (h : EndsInside a b vma) :
    (PartOf (cutVma vma a b).1 vma ∧ EndsInside a b (cutVma vma a b).1) ∧
      ∀ right, (cutVma vma a b).2 = some right → PartOf right vma ∧ EndsInside a b right := by
  have unbacked : ∀ v : VirtMemoryAddr, EndsInside a b (rightPart v b) :=
    fun v hb _ => (hb rfl).elim
  unfold cutVma
  by_cases ho : Overlaps vma a b
  · rw [if_neg (not_not.mpr ho)]
    have hbounds : vma.startVaddr < b ∧ a < vma.endVaddr := by
      unfold Overlaps at ho
      omega
    have hnone : b < vma.endVaddr → vma.pma.backenFile = none := fun hlt => by
      by_contra hb
      exact absurd (h hb ho) (by omega)
    split
    · split
      · rename_i hlt
        exact ⟨⟨partOf_right vma (hnone hlt) hbounds.1.le,unbacked vma⟩,
          fun right hr => (by cases hr)⟩
      · rename_i hge
        refine ⟨⟨partOf_emptied vma,fun _ _ => ?_⟩,fun right hr => (by cases hr)⟩
        rw [shape_end (shape_emptied vma)]
        omega
    · rename_i hstart
      have ends : ∀ v : VirtMemoryAddr, EndsInside a b (leftPart v a) := fun v _ hov =>
        (hov (.inr le_rfl)).elim
      split_ifs with hlt
      · refine ⟨⟨fun va hc => ?_,ends _⟩,fun right hr => ?_⟩
        · exact partOf_left vma hbounds.2.le va hc
        · cases hr
          exact ⟨partOf_right vma (hnone hlt) hbounds.1.le,unbacked vma⟩
      · exact ⟨⟨partOf_left vma hbounds.2.le,ends vma⟩,fun right hr => (by cases hr)⟩
  · rw [if_pos ho]
    exact ⟨⟨partOf_refl vma,h⟩,fun right hr => (by cases hr)⟩

theorem protectVma_parts (flags : MapPermission) (h : Inside a b vma) :
    (PartOf (protectVma vma a b flags).1 vma ∧ Inside a b (protectVma vma a b flags).1) ∧
      ∀ part ∈ (protectVma vma a b flags).2, PartOf part vma ∧ Inside a b part := by
  unfold protectVma
  by_cases ho : Overlaps vma a b
  · rw [if_neg (not_not.mpr ho)]
    have hbounds : vma.startVaddr < b ∧ a < vma.endVaddr := by
      unfold Overlaps at ho
      omega
    have hnone : ¬ (a ≤ vma.startVaddr ∧ vma.endVaddr ≤ b) → vma.pma.backenFile = none :=
      fun hc => by
      by_contra hb
      exact hc (h hb ho)
    have inside : ∀ part : VirtMemoryAddr, part.pma.backenFile = none → Inside a b part :=
      fun part hp hb _ => (hb hp).elim
    split
    · split
      · rename_i hstart hlt
        have hfile := hnone (by omega)
        refine ⟨⟨partOf_left vma hlt.le,inside _ hfile⟩,fun part hp => ?_⟩
        rw [List.mem_singleton] at hp
        subst hp
        exact ⟨partOf_right vma hfile hbounds.1.le,inside _ rfl⟩
      · exact ⟨⟨partOf_refl vma,h⟩,fun part hp => (by cases hp)⟩
    · split
      · rename_i hstart hlt
        have hfile := hnone (by omega)
        refine ⟨⟨fun va hc => ?_,inside _ hfile⟩,fun part hp => ?_⟩
        · exact partOf_left vma hbounds.2.le va hc
        · rw [List.mem_cons,List.mem_singleton] at hp
          rcases hp with rfl | rfl
          · exact ⟨partOf_right vma hfile hbounds.1.le,inside _ rfl⟩
          · refine ⟨fun va hc => ?_,inside _ rfl⟩
            obtain ⟨hcov,hsh⟩ := partOf_right (leftPart vma b) hfile (by
              change vma.startVaddr ≤ a
              omega) va hc
            obtain ⟨hcov',hsh'⟩ := partOf_left vma hlt.le va hcov
            exact ⟨hcov',hsh.trans hsh'⟩
      · rename_i hstart hge
        have hfile := hnone (by omega)
        refine ⟨⟨partOf_left vma hbounds.2.le,inside _ hfile⟩,fun part hp => ?_⟩
        rw [List.mem_singleton] at hp
        subst hp
        exact ⟨partOf_right vma hfile (show vma.startVaddr ≤ a by omega),inside _ rfl⟩
  · rw [if_pos ho]
    exact ⟨⟨partOf_refl vma,h⟩,fun part hp => (by cases hp)⟩

def Traced (P : VirtMemoryAddr → Prop) (areas₀ areas : VmaRange) : Prop :=
  ∀ (k : ℕ) (vma : VirtMemoryAddr), areas[k]? = some vma →
    (∀ va, Covers vma va → ∃ (k₀ : ℕ) (vma₀ : VirtMemoryAddr), areas₀[k₀]? = some vma₀ ∧
      Covers vma₀ va ∧ shownAt vma va = shownAt vma₀ va) ∧ P vma

theorem Traced.part {P : VirtMemoryAddr → Prop} {areas₀ : VmaRange} (h : Traced P areas₀ areas)
    {k : ℕ} (hk : areas[k]? = some vma) {part : VirtMemoryAddr} (hpart : PartOf part vma) (va : ℕ)
    (hc : Covers part va) :
    ∃ (k₀ : ℕ) (vma₀ : VirtMemoryAddr), areas₀[k₀]? = some vma₀ ∧ Covers vma₀ va ∧
      shownAt part va = shownAt vma₀ va := by
  obtain ⟨hcov,hshown⟩ := hpart va hc
  obtain ⟨k₀,vma₀,hk₀,hc₀,hs₀⟩ := (h k vma hk).1 va hcov
  exact ⟨k₀,vma₀,hk₀,hc₀,hshown.trans hs₀⟩

theorem showsAs_rounds {P : VirtMemoryAddr → Prop} {step : View → ℕ → View}
    (h : ∀ (k : ℕ) (vma : VirtMemoryAddr), areas[k]? = some vma → P vma)
    (keep : ∀ w i, Traced P areas w.areas → Traced P areas (step w i).areas) (keys : List ℕ) :
    ShowsAs areas (keys.foldl step (bare areas)).areas := by
  have traced : Traced P areas (keys.foldl step (bare areas)).areas :=
    List.foldlRecOn (motive := fun w : View => Traced P areas w.areas) keys step
      (fun k vma hk => ⟨ShowsAs.refl areas k vma hk,h k vma hk⟩) fun w hw i _ => keep w i hw
  exact fun k vma hk => (traced k vma hk).1

theorem unmap_showsAs (h : ∀ (k : ℕ) (vma : VirtMemoryAddr), areas[k]? = some vma →
      EndsInside (pageDown first) (pageUp last) vma) :
    ShowsAs areas (View.unmap (bare areas) first last).areas := by
  unfold View.unmap
  split
  · exact ShowsAs.refl areas
  · refine showsAs_rounds h (fun w i hw => cutAt_forall hw fun vma hi => ?_) _
    obtain ⟨⟨hpart,hends⟩,hright⟩ := cutVma_parts (hw i vma hi).2
    refine ⟨⟨hw.part hi hpart,hends⟩,fun right hr => ?_⟩
    exact ⟨hw.part hi (hright right hr).1,(hright right hr).2⟩

theorem protect_showsAs (flags : MapPermission)
    (h : ∀ (k : ℕ) (vma : VirtMemoryAddr), areas[k]? = some vma → Inside first last vma) :
    ShowsAs areas (View.protect (bare areas) first last flags).areas := by
  refine showsAs_rounds h (fun w i hw => protectAt_forall flags hw fun vma hi => ?_) _
  obtain ⟨⟨hpart,hin⟩,hparts⟩ := protectVma_parts flags (hw i vma hi).2
  refine ⟨⟨hw.part hi hpart,hin⟩,fun part hp => ?_⟩
  exact ⟨hw.part hi (hparts part hp).1,(hparts part hp).2⟩

end Cuts

/-- Unmapping cuts no file mapping that reaches beyond the range, and changing the protection
none that is not inside it. Pages may be touched in between. -/
def KeepsFiles : SpaceOp → VmaRange → Prop
  | .munmap first last, areas => ∀ (k : ℕ) (vma : VirtMemoryAddr), areas[k]? = some vma →
      EndsInside (pageDown first) (pageUp last) vma
  | .mprotect first last _, areas => ∀ (k : ℕ) (vma : VirtMemoryAddr), areas[k]? = some vma →
      Inside first last vma
  | .fault _, _ => True
  | _, _ => False

theorem exec_showsAs {op : SpaceOp} {ms : MemorySet} (h : KeepsFiles op ms.areas) :
    Yields (op.exec ms) fun ms' => ShowsAs ms.areas ms'.areas := by
  cases op with
  | munmap first last =>
    refine (unmap_shape ms.areas first last ms.pt).bind fun areas hs => yields_pure ?_
    exact (unmap_showsAs h).trans (.of_sameShape hs)
  | mprotect first last flags =>
    refine (mprotect_shape ms.areas first last flags ms.pt).bind fun areas hs => yields_pure ?_
    exact (protect_showsAs flags h).trans (.of_sameShape hs)
  | fault vaddr =>
    exact (handlePageFault_shape ms vaddr).bind fun r hs => yields_pure (.of_sameShape hs)
  | push | mmapAnywhere | mmapFixed | expand => exact h.elim

theorem sysMmap_file (p : Process) (addr length : ℕ) (prot flags : BitVec 32) {fd : ℕ}
    (offset : ℕ) {file : File} (hfd : p.fdTable[fd]? = some file)
    (hfile : isAnonymous flags = false) :
    Yields (sysMmap p addr length prot flags fd offset) fun r => ∀ start, r.2 = .ok start →
      ∃ vma, r.1.vm.areas[start]? = some vma ∧ vma.startVaddr = start ∧
        vma.pma.backenFile = some ⟨offset, file⟩ := by
  unfold sysMmap
  split
  · exact yields_pure fun start hr => (by cases hr)
  · refine yields_after fun r => ?_
    cases r.2 with
    | error e => exact yields_pure fun start hr => (by cases hr)
    | ok vma =>
      have hnot : ¬ contains (mmapFlagsUsed flags) MmapFlags.MAP_ANONYMOUS = true := by
        intro hc
        exact Bool.false_ne_true (hfile.symm.trans hc)
      dsimp only
      unfold mmapInstall
      rw [if_neg hnot]
      simp only [hfd]
      unfold MemorySet.mmap MemorySet.pushNoMap VmaRange.insertRaw
      simp only [bind_assoc,pure_bind]
      refine (insertSegment_yields _ _ _).bind ?_
      rintro _ rfl
      refine yields_pure fun start hr => ?_
      cases hr
      refine ⟨MemorySet.withFile vma (some ⟨offset,file⟩),?_,rfl,rfl⟩
      change (r.1.areas.insert vma.startVaddr _)[vma.startVaddr]? = _
      rw [getElem?_insert,if_pos rfl]

/-- Along a run that keeps files, an address of a new file mapping that no other segment
covered is only ever covered by segments that show it the byte it showed at first. -/
theorem file_mapping_kept (p : Process) (m : Machine) (addr length : ℕ) (prot flags : BitVec 32)
    (fd offset : ℕ) (file : File) (hfd : p.fdTable[fd]? = some file)
    (hfile : isAnonymous flags = false) (p₀ : Process) (start : ℕ) (m₀ : Machine)
    (created : sysMmap p addr length prot flags fd offset m = .ok (p₀, .ok start) m₀) :
    ∃ vma₀, p₀.vm.areas[start]? = some vma₀ ∧ vma₀.startVaddr = start ∧
      vma₀.pma.backenFile = some ⟨offset, file⟩ ∧
      ∀ ms m', Runs SpaceOp.exec (fun op ms _ => KeepsFiles op ms.areas) p₀.vm m₀ ms m' →
        ∀ va, Covers vma₀ va →
          (∀ (k : ℕ) (vma : VirtMemoryAddr), p₀.vm.areas[k]? = some vma →
            Covers vma va → k = start) →
          ∀ (k : ℕ) (vma : VirtMemoryAddr), ms.areas[k]? = some vma → Covers vma va →
            shownAt vma va = some (file, wrappingAdd (wrappingAdd offset va)
              (wordSize - start)) := by
  obtain ⟨vma₀,hk₀,hstart,hback⟩ :=
    (sysMmap_file p addr length prot flags offset hfd hfile).of_ok created start rfl
  refine ⟨vma₀,hk₀,hstart,hback,?_⟩
  intro ms m' run va _ alone k vma hk hc
  have shows : ShowsAs p₀.vm.areas ms.areas := by
    refine run.invariant (fun ms _ => ShowsAs p₀.vm.areas ms.areas) ?_ (ShowsAs.refl _)
    intro op ms s h keeps
    exact (exec_showsAs keeps s).imp fun ms' _ h' => h.trans h'
  obtain ⟨k₁,vma₁,hk₁,hc₁,hs₁⟩ := shows k vma hk va hc
  obtain rfl := alone k₁ vma₁ hk₁ hc₁
  rw [hk₀] at hk₁
  cases hk₁
  rw [hs₁,shownAt,hback,hstart]
  rfl

/-- A machine on which inode 0 is a file of two pages of zeros. -/
def fileMachine : Machine :=
  { bootMachine 64 with inodes := fun _ => some ⟨0x2000, fun _ n => some (List.replicate n 0)⟩ }

/-- A process with that file open as descriptor 3. -/
def fileProcess : Kernel Process := do
  let vm ← MemorySet.newUser
  pure ⟨vm, (∅ : BTreeMap File).insert 3 ⟨some ⟨some 0, 0⟩⟩⟩

/-- Both pages of a file mapping are touched. -/
def touchBoth (ms : MemorySet) : Kernel MemorySet :=
  [SpaceOp.fault 0x10000, .fault 0x11000].foldlM (fun ms op => op.exec ms) ms

/-- The second page of the mapping is unmapped: the first shows what it did. -/
theorem file_mapping_kept_first : ∃ p m p₀ m₀ ms m₁ ms' m',
    fileProcess fileMachine = .ok p m ∧
    sysMmap p 0x10000 0x2000 3 0x12 3 0 m = .ok (p₀, .ok 0x10000) m₀ ∧
    touchBoth p₀.vm m₀ = .ok ms m₁ ∧ ms.munmap 0x11000 0x12000 m₁ = .ok ms' m' ∧
    ∃ vma, ms'.areas[0x10000]? = some vma ∧ Covers vma 0x10fff ∧
      shownAt vma 0x10fff = some (⟨some ⟨some 0, 0⟩⟩, 0xfff) := by
  have computed : returnsWith fileProcess fileMachine (fun p m =>
      (p.fdTable[3]? == some ⟨some ⟨some 0,0⟩⟩) &&
      returnsWith (sysMmap p 0x10000 0x2000 3 0x12 3 0) m fun r m₀ =>
        r.2 == .ok 0x10000 && (r.1.vm.areas.toList.all fun e => e.1 == 0x10000) &&
        (r.1.vm.areas[0x10000]?.all fun vma => vma.endVaddr == 0x12000) &&
        returnsWith (touchBoth r.1.vm) m₀ fun ms m₁ =>
          (ms.areas.toList.all fun e => e.2.endVaddr == 0x12000) &&
          returnsWith (ms.munmap 0x11000 0x12000) m₁ fun ms' _ =>
            ms'.areas[0x10000]?.any fun vma =>
              vma.startVaddr == 0x10000 && vma.endVaddr == 0x11000) = true := by
    decide +kernel
  obtain ⟨p,m,opened,computed⟩ := returnsWith_elim computed
  rw [Bool.and_eq_true,beq_iff_eq] at computed
  obtain ⟨hfd,computed⟩ := computed
  obtain ⟨⟨p₀,r⟩,m₀,created,computed⟩ := returnsWith_elim computed
  simp only [Bool.and_eq_true,beq_iff_eq] at computed
  obtain ⟨⟨⟨rfl,honly⟩,hlimit⟩,computed⟩ := computed
  obtain ⟨ms,m₁,touched,computed⟩ := returnsWith_elim computed
  rw [Bool.and_eq_true] at computed
  obtain ⟨hends,computed⟩ := computed
  obtain ⟨ms',m',unmapped,computed⟩ := returnsWith_elim computed
  obtain ⟨vma,hk,hbounds⟩ := (Option.any_eq_true _ _).mp computed
  simp only [Bool.and_eq_true,beq_iff_eq] at hbounds
  have hcover : Covers vma 0x10fff := by
    unfold Covers
    omega
  obtain ⟨vma₀,hk₀,hstart,-,kept⟩ := file_mapping_kept p m 0x10000 0x2000 3 0x12 3 0 _ hfd
    (by decide) p₀ 0x10000 m₀ created
  rw [hk₀] at hlimit
  have run : Runs SpaceOp.exec (fun op ms _ => KeepsFiles op ms.areas) p₀.vm m₀ ms m₁ :=
    Runs.of_foldlM [SpaceOp.fault 0x10000,.fault 0x11000] (by
      intro op hop ms s
      simp only [List.mem_cons,List.not_mem_nil,or_false] at hop
      rcases hop with rfl | rfl <;> trivial) .refl touched
  have unmaps : KeepsFiles (.munmap 0x11000 0x12000) ms.areas := by
    intro k v hv _ _
    have hend := all_toList hends hv
    exact (beq_iff_eq.mp hend).le
  refine ⟨p,m,p₀,m₀,ms,m₁,ms',m',opened,created,touched,unmapped,vma,hk,hcover,?_⟩
  refine kept ms' m' (run.next unmaps unmapped) 0x10fff ?_ ?_ 0x10000 vma hk hcover
  · have hend := beq_iff_eq.mp hlimit
    unfold Covers
    omega
  · intro k v hv _
    have hoffset := all_toList honly hv
    exact beq_iff_eq.mp hoffset

/-- The first page is unmapped: the second is anonymous from then on. -/
theorem munmap_first_loses_file : ∃ p m p₀ m₀ ms m₁ ms' m',
    fileProcess fileMachine = .ok p m ∧
    sysMmap p 0x10000 0x2000 3 0x12 3 0 m = .ok (p₀, .ok 0x10000) m₀ ∧
    (∃ vma₀, p₀.vm.areas[0x10000]? = some vma₀ ∧ Covers vma₀ 0x11000 ∧
      shownAt vma₀ 0x11000 = some (⟨some ⟨some 0, 0⟩⟩, 0x1000)) ∧
    touchBoth p₀.vm m₀ = .ok ms m₁ ∧ ms.munmap 0x10000 0x11000 m₁ = .ok ms' m' ∧
    ∃ vma, ms'.areas[0x10000]? = some vma ∧ Covers vma 0x11000 ∧ shownAt vma 0x11000 = none := by
  have computed : returnsWith fileProcess fileMachine (fun p m =>
      returnsWith (sysMmap p 0x10000 0x2000 3 0x12 3 0) m fun r m₀ =>
        r.2 == .ok 0x10000 &&
        (r.1.vm.areas[0x10000]?.any fun vma => vma.startVaddr == 0x10000 &&
          vma.endVaddr == 0x12000 && shownAt vma 0x11000 == some (⟨some ⟨some 0,0⟩⟩, 0x1000)) &&
        returnsWith (touchBoth r.1.vm) m₀ fun ms m₁ =>
          returnsWith (ms.munmap 0x10000 0x11000) m₁ fun ms' _ =>
            ms'.areas[0x10000]?.any fun vma => vma.startVaddr == 0x11000 &&
              vma.endVaddr == 0x12000 && shownAt vma 0x11000 == none) = true := by
    decide +kernel
  obtain ⟨p,m,opened,computed⟩ := returnsWith_elim computed
  obtain ⟨⟨p₀,r⟩,m₀,created,computed⟩ := returnsWith_elim computed
  rw [Bool.and_eq_true,Bool.and_eq_true,beq_iff_eq] at computed
  obtain ⟨⟨rfl,hbefore⟩,computed⟩ := computed
  obtain ⟨ms,m₁,touched,computed⟩ := returnsWith_elim computed
  obtain ⟨ms',m',unmapped,hafter⟩ := returnsWith_elim computed
  obtain ⟨vma₀,hk₀,hbefore⟩ := (Option.any_eq_true _ _).mp hbefore
  obtain ⟨vma,hk,hafter⟩ := (Option.any_eq_true _ _).mp hafter
  simp only [Bool.and_eq_true,beq_iff_eq] at hbefore hafter
  refine ⟨p,m,p₀,m₀,ms,m₁,ms',m',opened,created,⟨vma₀,hk₀,?_,hbefore.2⟩,touched,
    unmapped,vma,hk,?_,hafter.2⟩
  · unfold Covers
    omega
  · unfold Covers
    omega

end DuckOs.FileOffsets
