import DuckOs.AddressModel

/-! Who holds the physical frames: trackers that give their frame back when they are dropped, and
the buffers of the block driver, whose trackers stay in a queue. The bitmap is a set of free
numbers; which of them it hands out is left open. -/
namespace DuckOs.FrameTrackers
open ExecutionRules AddressModel

variable {answer : Option ℕ} {ppn i : ℕ}

structure Frames where
  free : Finset ℕ
  /-- live trackers outside the queue of the driver -/
  held : List ℕ
  /-- `QUEUE_FRAMES` -/
  queueFrames : List ℕ
  /-- address and pages of the buffers that the driver has -/
  buffers : List (ℕ × ℕ)

abbrev FrameM := EStateM Panic Frames

/-- The frame must lie in RAM to be cleared. -/
def FrameTracker.new (ppn : ℕ) : FrameM ℕ := do
  assertThat (checkPaddr (ppnToPhys ppn))
  pure ppn

def allocFrame : Option ℕ → FrameM (Option ℕ)
  | none => pure none
  | some ppn => do
    modify fun s => { s with free := s.free.erase ppn }
    let tracker ← FrameTracker.new ppn
    pure (some tracker)

def allocContiguousFrame (num : ℕ) : Option ℕ → FrameM (List ℕ)
  | none => pure []
  | some start => do
    modify fun s => { s with free := s.free \ (List.range' start num).toFinset }
    (List.range' start num).mapM FrameTracker.new

def deallocFrame (ppn : ℕ) : FrameM Unit := do
  let s ← get
  if ppn ∈ s.free then throw .assertion else set { s with free := insert ppn s.free }

/-- The frames are popped from the end one by one. -/
def dmaAlloc (pages : ℕ) (answer : Option ℕ) : FrameM Unit := do
  let frames ← allocContiguousFrame pages answer
  match frames with
  | [] => throw .explicit
  | first :: _ =>
    modify fun s => { s with
      queueFrames := s.queueFrames ++ frames.reverse
      buffers := s.buffers ++ [(ppnToPhys first, pages)] }

/-- The frames are freed by number. -/
def dmaDealloc (paddr pages : ℕ) : FrameM Unit := do
  let ppn ← physToPpn paddr
  (List.range' ppn pages).forM deallocFrame

inductive FrameOp where
  | alloc (answer : Option ℕ)
  | allocContiguous (num : ℕ) (answer : Option ℕ)
  | dropTracker (i : ℕ)
  | dmaAlloc (pages : ℕ) (answer : Option ℕ)
  | dmaDealloc (i : ℕ)

variable {ops : List FrameOp}

def FrameOp.exec : FrameOp → FrameM Unit
  | .alloc answer => do
    let tracker ← allocFrame answer
    modify fun s => { s with held := s.held ++ tracker.toList }
  | .allocContiguous num answer => do
    let frames ← allocContiguousFrame num answer
    modify fun s => { s with held := s.held ++ frames }
  | .dropTracker i => do
    let s ← get
    match s.held[i]? with
    | none => pure ()
    | some ppn =>
      set { s with held := s.held.eraseIdx i }
      deallocFrame ppn
  | .dmaAlloc pages answer => FrameTrackers.dmaAlloc pages answer
  | .dmaDealloc i => do
    let s ← get
    match s.buffers[i]? with
    | none => pure ()
    | some (paddr, pages) =>
      set { s with buffers := s.buffers.eraseIdx i }
      FrameTrackers.dmaDealloc paddr pages

/-- The bitmap hands out free numbers, live trackers are dropped, and the driver gives back
buffers that it has. -/
def FrameOp.Allowed (s : Frames) : FrameOp → Prop
  | .alloc answer => ∀ ppn, answer = some ppn → ppn ∈ s.free
  | .allocContiguous num answer | .dmaAlloc num answer =>
    ∀ start, answer = some start → ∀ ppn ∈ List.range' start num, ppn ∈ s.free
  | .dropTracker i => i < s.held.length
  | .dmaDealloc i => i < s.buffers.length

def FrameOp.freed (s : Frames) : FrameOp → List ℕ
  | .dropTracker i => s.held[i]?.toList
  | .dmaDealloc i =>
    match s.buffers[i]? with
    | some (paddr, pages) => List.range' (paddr / 4096) pages
    | none => []
  | _ => []

def memoryEnd : ℕ := 0x8800_0000

/-- After `init_frame_allocator`. -/
def booted (startPpn : ℕ) : Frames :=
  ⟨Finset.Ico startPpn (memoryEnd >>> pageSizeBits), [], [], []⟩

section Owners

def OneOwner (s : Frames) : Prop :=
  (s.held ++ s.queueFrames).Nodup ∧ ∀ ppn ∈ s.held ++ s.queueFrames, ppn ∉ s.free

def FreedTwice (s : Frames) (op : FrameOp) : Prop := ∃ ppn ∈ op.freed s, ppn ∈ s.free

/-- Every operation of the sequence is one that its callers may make, up to where the kernel
stops. -/
def AllowedAlong : Frames → List FrameOp → Prop
  | _, [] => True
  | s, op :: ops => op.Allowed s ∧ ∀ s', op.exec s = .ok () s' → AllowedAlong s' ops

/-- Every state on the way has one owner per frame, and no step frees a free frame. -/
def OwnedAlong : Frames → List FrameOp → Prop
  | s, [] => OneOwner s
  | s, op :: ops =>
    OneOwner s ∧ ¬ FreedTwice s op ∧ ∀ s', op.exec s = .ok () s' → OwnedAlong s' ops

/-- The driver never gives a buffer back. -/
def BuffersKept : Frames → List FrameOp → Prop
  | _, [] => True
  | s, op :: ops => (∀ i, op ≠ .dmaDealloc i) ∧ ∀ s', op.exec s = .ok () s' → BuffersKept s' ops

/-- The invariant of runs without `dma_dealloc`. -/
structure Owned (s : Frames) : Prop where
  owner : OneOwner s
  small : ∀ ppn, ppn ∈ s.free ∨ ppn ∈ s.held ++ s.queueFrames → ppn < 2 ^ 52
  buffers : ∀ b ∈ s.buffers, 0 < b.2 ∧ checkPaddr b.1 = true ∧
    ∀ ppn ∈ List.range' (b.1 / 4096) b.2, ppn ∈ s.queueFrames

variable {s : Frames}

theorem owned_booted (startPpn : ℕ) : Owned (booted startPpn) := by
  refine ⟨⟨List.nodup_nil,nofun⟩,?_,nofun⟩
  intro ppn h
  have hlt : ppn < memoryEnd >>> pageSizeBits := by
    rcases h with h | h
    · exact (Finset.mem_Ico.mp h).2
    · cases h
  exact hlt.trans (by decide)

theorem new_holds (ppn : ℕ) (s : Frames) : Holds (FrameTracker.new ppn) s
    (fun r t => r = ppn ∧ t = s ∧ checkPaddr (ppnToPhys ppn) = true) fun _ _ => True := by
  unfold Holds FrameTracker.new
  rw [guarded_eq]
  by_cases h : checkPaddr (ppnToPhys ppn) = true
  · rw [if_pos h]
    exact ⟨rfl,rfl,h⟩
  · rw [if_neg h]
    trivial

theorem mapM_new_holds : ∀ (ppns : List ℕ) (s : Frames), Holds (ppns.mapM FrameTracker.new) s
    (fun r t => r = ppns ∧ t = s ∧ ∀ ppn ∈ ppns, checkPaddr (ppnToPhys ppn) = true)
    fun _ _ => True := by
  intro ppns
  induction ppns with
  | nil => intro s; exact holds_pure ⟨rfl,rfl,nofun⟩
  | cons ppn ppns ih =>
    intro s
    rw [List.mapM_cons]
    refine (new_holds ppn s).bind ?_
    rintro r t ⟨rfl,rfl,hppn⟩
    refine (ih t).bind ?_
    rintro rest u ⟨rfl,rfl,hrest⟩
    exact holds_pure ⟨rfl,rfl,List.forall_mem_cons.mpr ⟨hppn,hrest⟩⟩

theorem Owned.taken (h : Owned s) {t : Frames} {ppns : List ℕ} (hn : ppns.Nodup)
    (hfree : ∀ ppn ∈ ppns, ppn ∈ s.free) (ht : t.free = s.free \ ppns.toFinset)
    (hlive : (t.held ++ t.queueFrames).Perm (s.held ++ s.queueFrames ++ ppns)) :
    OneOwner t ∧ ∀ ppn, ppn ∈ t.free ∨ ppn ∈ t.held ++ t.queueFrames → ppn < 2 ^ 52 := by
  obtain ⟨hnodup,hnot⟩ := h.owner
  refine ⟨⟨?_,?_⟩,?_⟩
  · rw [hlive.nodup_iff,List.nodup_append]
    refine ⟨hnodup,hn,?_⟩
    intro a ha b hb hab
    exact hnot a ha (hab ▸ hfree b hb)
  · intro ppn hppn hmem
    rw [ht,Finset.mem_sdiff,List.mem_toFinset] at hmem
    rcases List.mem_append.mp (hlive.mem_iff.mp hppn) with hold | hnew
    · exact hnot ppn hold hmem.1
    · exact hmem.2 hnew
  · intro ppn hppn
    apply h.small ppn
    rcases hppn with hmem | hmem
    · rw [ht] at hmem
      exact .inl (Finset.mem_sdiff.mp hmem).1
    · rcases List.mem_append.mp (hlive.mem_iff.mp hmem) with hold | hnew
      · exact .inr hold
      · exact .inl (hfree ppn hnew)

theorem allocContiguousFrame_holds (num : ℕ) (answer : Option ℕ) (s : Frames) :
    Holds (allocContiguousFrame num answer) s
      (fun r t => (answer = none ∧ r = [] ∧ t = s) ∨ ∃ start, answer = some start ∧
        r = List.range' start num ∧
        t = { s with free := s.free \ r.toFinset } ∧
        ∀ ppn ∈ r, checkPaddr (ppnToPhys ppn) = true)
      fun _ _ => True := by
  cases answer with
  | none => exact holds_pure (.inl ⟨rfl,rfl,rfl⟩)
  | some start =>
    refine holds_bind_ok rfl ((mapM_new_holds (List.range' start num) _).imp ?_)
    rintro r t ⟨rfl,rfl,hram⟩
    exact .inr ⟨start,rfl,rfl,rfl,hram⟩

theorem alloc_owned (h : Owned s) (ha : (FrameOp.alloc answer).Allowed s) :
    Holds (FrameOp.alloc answer).exec s (fun _ => Owned) fun _ _ => True := by
  cases answer with
  | none =>
    refine holds_ok rfl ?_
    simpa using h
  | some ppn =>
    refine Holds.bind (holds_bind_ok rfl ((new_holds ppn _).bind fun r t ht => holds_pure
      (Q := fun r t => r = some ppn ∧ t = { s with free := s.free.erase ppn })
      ⟨congrArg some ht.1,ht.2.1⟩)) ?_
    rintro r t ⟨rfl,rfl⟩
    refine holds_ok rfl ?_
    have hlive : ((s.held ++ [ppn]) ++ s.queueFrames).Perm (s.held ++ s.queueFrames ++ [ppn]) := by
      rw [List.append_assoc,List.append_assoc]
      exact List.perm_append_comm.append_left _
    obtain ⟨howner,hsmall⟩ := h.taken (t := { s with
        free := s.free.erase ppn, held := s.held ++ [ppn] }) (List.nodup_singleton ppn)
      (by simpa using ha ppn rfl) (by simp [Finset.erase_eq]) hlive
    exact ⟨howner,hsmall,h.buffers⟩

theorem allocContiguous_owned (h : Owned s) {num : ℕ}
    (ha : (FrameOp.allocContiguous num answer).Allowed s) :
    Holds (FrameOp.allocContiguous num answer).exec s (fun _ => Owned) fun _ _ => True := by
  refine (allocContiguousFrame_holds num answer s).bind ?_
  rintro r t (⟨-,rfl,rfl⟩ | ⟨start,rfl,rfl,rfl,-⟩)
  · refine holds_ok rfl ?_
    simpa using h
  · refine holds_ok rfl ?_
    have hlive : ((s.held ++ List.range' start num) ++ s.queueFrames).Perm
        (s.held ++ s.queueFrames ++ List.range' start num) := by
      rw [List.append_assoc,List.append_assoc]
      exact List.perm_append_comm.append_left _
    obtain ⟨howner,hsmall⟩ := h.taken (t := { s with
        free := s.free \ (List.range' start num).toFinset,
        held := s.held ++ List.range' start num })
      (List.nodup_range' 1 Nat.one_pos) (ha start rfl) rfl hlive
    exact ⟨howner,hsmall,h.buffers⟩

theorem ppnToPhys_div (h : ppn < 2 ^ 52) : ppnToPhys ppn / 4096 = ppn := by
  rw [ppnToPhys_of_lt h,Nat.mul_div_cancel _ (by decide)]

theorem dmaAlloc_owned (h : Owned s) {pages : ℕ} (ha : (FrameOp.dmaAlloc pages answer).Allowed s) :
    Holds (FrameOp.dmaAlloc pages answer).exec s (fun _ => Owned) fun _ _ => True := by
  refine (allocContiguousFrame_holds pages answer s).bind ?_
  rintro r t (⟨-,rfl,rfl⟩ | ⟨start,rfl,hr,rfl,hram⟩)
  · trivial
  · cases r with
    | nil => trivial
    | cons first rest =>
      refine holds_ok rfl ?_
      have hpages : 0 < pages := by
        cases pages with
        | zero => simp at hr
        | succ pages => exact Nat.succ_pos pages
      obtain rfl : first = start := by
        have hhead := congrArg List.head? hr
        rw [List.head?_range'] at hhead
        simpa [Nat.pos_iff_ne_zero.mp hpages] using hhead
      have hfree : ∀ ppn ∈ first :: rest, ppn ∈ s.free := hr ▸ ha first rfl
      have hnodup : (first :: rest).Nodup := hr ▸ List.nodup_range' 1 Nat.one_pos
      have hlive : (s.held ++ (s.queueFrames ++ (first :: rest).reverse)).Perm
          (s.held ++ s.queueFrames ++ (first :: rest)) := by
        rw [List.append_assoc]
        exact ((List.reverse_perm _).append_left _).append_left _
      obtain ⟨howner,hsmall⟩ := h.taken (t := { s with
          free := s.free \ (first :: rest).toFinset
          queueFrames := s.queueFrames ++ (first :: rest).reverse
          buffers := s.buffers ++ [(ppnToPhys first, pages)] }) hnodup hfree rfl hlive
      refine ⟨howner,hsmall,?_⟩
      intro b hb
      rcases List.mem_append.mp hb with hold | hnew
      · obtain ⟨hpos,hcheck,hqueue⟩ := h.buffers b hold
        exact ⟨hpos,hcheck,fun ppn hppn => List.mem_append_left _ (hqueue ppn hppn)⟩
      · obtain rfl : b = (ppnToPhys first, pages) := by simpa using hnew
        refine ⟨hpages,hram first List.mem_cons_self,?_⟩
        intro ppn hppn
        rw [ppnToPhys_div (h.small first (.inl (hfree first List.mem_cons_self))),← hr] at hppn
        exact List.mem_append_right _ (List.mem_reverse.mpr hppn)

theorem deallocFrame_ok (h : ppn ∉ s.free) :
    deallocFrame ppn s = .ok () { s with free := insert ppn s.free } := by
  have hrun : deallocFrame ppn s =
      (if ppn ∈ s.free then throw .assertion else set { s with free := insert ppn s.free } :
        FrameM Unit) s := rfl
  rw [hrun,if_neg h]
  rfl

theorem dropTracker_owned (h : Owned s) (ha : (FrameOp.dropTracker i).Allowed s) :
    ¬ FreedTwice s (.dropTracker i) ∧
      Holds (FrameOp.dropTracker i).exec s (fun _ => Owned) fun _ _ => True := by
  obtain ⟨ppn,hppn⟩ : ∃ ppn, s.held[i]? = some ppn := ⟨_,List.getElem?_eq_getElem ha⟩
  obtain ⟨hnodup,hnot⟩ := h.owner
  have hperm : (ppn :: (s.held.eraseIdx i ++ s.queueFrames)).Perm (s.held ++ s.queueFrames) := by
    obtain ⟨hi,rfl⟩ := List.getElem?_eq_some_iff.mp hppn
    exact (List.getElem_cons_eraseIdx_perm hi).append_right _
  have hmine : ppn ∉ s.free := hnot ppn (hperm.mem_iff.mp List.mem_cons_self)
  obtain ⟨hgone,hrest⟩ := List.nodup_cons.mp (hperm.nodup_iff.mpr hnodup)
  constructor
  · rintro ⟨ppn',hfreed,hfree⟩
    have : ppn' = ppn := by simpa [FrameOp.freed,hppn,eq_comm] using hfreed
    exact hmine (this ▸ hfree)
  · have hrun : (FrameOp.dropTracker i).exec s =
        deallocFrame ppn { s with held := s.held.eraseIdx i } := by
      have hunfold : (FrameOp.dropTracker i).exec s = (match s.held[i]? with
        | none => pure ()
        | some ppn => do
          set { s with held := s.held.eraseIdx i }
          deallocFrame ppn : FrameM Unit) s := rfl
      rw [hunfold,hppn]
      rfl
    refine holds_ok (hrun.trans (deallocFrame_ok hmine)) ⟨⟨hrest,?_⟩,?_,h.buffers⟩
    · intro q hq hfree
      rcases Finset.mem_insert.mp hfree with rfl | hfree
      · exact hgone hq
      · exact hnot q (hperm.mem_iff.mp (List.mem_cons_of_mem _ hq)) hfree
    · intro q hq
      apply h.small q
      rcases hq with hq | hq
      · rcases Finset.mem_insert.mp hq with rfl | hq
        · exact .inr (hperm.mem_iff.mp List.mem_cons_self)
        · exact .inl hq
      · exact .inr (hperm.mem_iff.mp (List.mem_cons_of_mem _ hq))

theorem forM_deallocFrame : ∀ (ppns : List ℕ) (s : Frames), ppns.Nodup →
    (∀ ppn ∈ ppns, ppn ∉ s.free) →
    ∃ free', ppns.forM deallocFrame s = .ok () { s with free := free' } ∧
      (∀ ppn ∈ ppns, ppn ∈ free') ∧ s.free ⊆ free' := by
  intro ppns
  induction ppns with
  | nil => intro s _ _; exact ⟨s.free,rfl,nofun,Finset.Subset.refl _⟩
  | cons ppn ppns ih =>
    intro s hn hnot
    obtain ⟨hhead,htail⟩ := List.nodup_cons.mp hn
    have hfirst := deallocFrame_ok (hnot ppn List.mem_cons_self)
    obtain ⟨free',hrun,hin,hsub⟩ := ih { s with free := insert ppn s.free } htail (by
      intro q hq hmem
      rcases Finset.mem_insert.mp hmem with rfl | hmem
      · exact hhead hq
      · exact hnot q (List.mem_cons_of_mem _ hq) hmem)
    refine ⟨free',?_,?_,fun q hq => hsub (Finset.mem_insert_of_mem hq)⟩
    · exact (bind_ok (f := fun _ => ppns.forM deallocFrame) hfirst).trans hrun
    · intro q hq
      rcases List.mem_cons.mp hq with rfl | hq
      · exact hsub (Finset.mem_insert_self _ _)
      · exact hin q hq

theorem dmaDealloc_breaks (h : Owned s) (ha : (FrameOp.dmaDealloc i).Allowed s) :
    ∃ s', (FrameOp.dmaDealloc i).exec s = .ok () s' ∧ ¬ OneOwner s' := by
  obtain ⟨⟨paddr,pages⟩,hb⟩ : ∃ b, s.buffers[i]? = some b := ⟨_,List.getElem?_eq_getElem ha⟩
  obtain ⟨hpos,hcheck,hqueue⟩ := h.buffers _ (List.mem_of_getElem? hb)
  obtain ⟨free',hrun,hin,-⟩ := forM_deallocFrame (List.range' (paddr / 4096) pages)
    { s with buffers := s.buffers.eraseIdx i } (List.nodup_range' 1 Nat.one_pos)
    fun ppn hppn => h.owner.2 ppn (List.mem_append_right _ (hqueue ppn hppn))
  have hexec : (FrameOp.dmaDealloc i).exec s = (List.range' (paddr / 4096) pages).forM deallocFrame
      { s with buffers := s.buffers.eraseIdx i } := by
    have hunfold : (FrameOp.dmaDealloc i).exec s = (match s.buffers[i]? with
      | none => pure ()
      | some (paddr, pages) => do
        set { s with buffers := s.buffers.eraseIdx i }
        dmaDealloc paddr pages : FrameM Unit) s := rfl
    rw [hunfold,hb]
    refine (bind_ok rfl).trans ((bind_ok ?_).trans rfl)
    rw [physToPpn_eq,if_pos hcheck]
  refine ⟨_,hexec.trans hrun,?_⟩
  intro hone
  have hfirst : paddr / 4096 ∈ List.range' (paddr / 4096) pages := by
    rw [List.mem_range'_1]
    omega
  exact hone.2 _ (List.mem_append_right _ (hqueue _ hfirst)) (hin _ hfirst)

theorem OwnedAlong.owner (h : OwnedAlong s ops) : OneOwner s := by
  cases ops with
  | nil => exact h
  | cons op ops => exact h.1

theorem step_owned (h : Owned s) (op : FrameOp) (ha : op.Allowed s)
    (hop : ∀ i, op ≠ .dmaDealloc i) :
    ¬ FreedTwice s op ∧ Holds op.exec s (fun _ => Owned) fun _ _ => True := by
  cases op with
  | alloc answer => exact ⟨by simp [FreedTwice,FrameOp.freed],alloc_owned h ha⟩
  | allocContiguous num answer =>
    exact ⟨by simp [FreedTwice,FrameOp.freed],allocContiguous_owned h ha⟩
  | dropTracker i => exact dropTracker_owned h ha
  | dmaAlloc pages answer => exact ⟨by simp [FreedTwice,FrameOp.freed],dmaAlloc_owned h ha⟩
  | dmaDealloc i => exact absurd rfl (hop i)

theorem ownedAlong_iff : ∀ (ops : List FrameOp) (s : Frames), Owned s → AllowedAlong s ops →
    (OwnedAlong s ops ↔ BuffersKept s ops) := by
  intro ops
  induction ops with
  | nil => intro s h _; exact iff_of_true h.owner trivial
  | cons op ops ih =>
    intro s h ha
    by_cases hop : ∀ i, op ≠ .dmaDealloc i
    · obtain ⟨hfreed,hstep⟩ := step_owned h op ha.1 hop
      have hrest : ∀ s', op.exec s = .ok () s' → (OwnedAlong s' ops ↔ BuffersKept s' ops) :=
        fun s' hs => ih s' (hstep.of_ok hs) (ha.2 s' hs)
      constructor
      · intro hall
        exact ⟨hop,fun s' hs => (hrest s' hs).mp (hall.2.2 s' hs)⟩
      · intro hkept
        exact ⟨h.owner,hfreed,fun s' hs => (hrest s' hs).mpr (hkept.2 s' hs)⟩
    · obtain ⟨i,rfl⟩ : ∃ i, op = .dmaDealloc i := by simpa using hop
      obtain ⟨s',hs,hbroken⟩ := dmaDealloc_breaks h ha.1
      exact iff_of_false (fun hall => hbroken (hall.2.2 s' hs).owner) fun hkept => hkept.1 i rfl

/-- From boot, whatever the bitmap hands out: every frame has one owner and no frame is freed twice
all along exactly if no buffer of the driver is given back. -/
theorem frames_owned_iff (startPpn : ℕ) (ops : List FrameOp)
    (allowed : AllowedAlong (booted startPpn) ops) :
    OwnedAlong (booted startPpn) ops ↔ BuffersKept (booted startPpn) ops :=
  ownedAlong_iff ops _ (owned_booted startPpn) allowed

theorem AllowedAlong.step {s' : Frames} {op : FrameOp} (h : op.Allowed s)
    (he : op.exec s = .ok () s') (rest : AllowedAlong s' ops) : AllowedAlong s (op :: ops) := by
  refine ⟨h,fun t ht => ?_⟩
  rw [he] at ht
  cases ht
  exact rest

/-- The last two frames of the memory. -/
def lastFrames : Frames := booted 0x87ffe

/-- The driver has a buffer. -/
def withBuffer : Frames := ⟨lastFrames.free \ {0x87ffe}, [], [0x87ffe], [(0x87ffe000, 1)]⟩

theorem dmaAlloc_lastFrames :
    (FrameOp.dmaAlloc 1 (some 0x87ffe)).exec lastFrames = .ok () withBuffer := rfl

theorem dmaAlloc_allowed : (FrameOp.dmaAlloc 1 (some 0x87ffe)).Allowed lastFrames := by
  intro start h
  cases h
  decide

/-- The driver keeps its buffer, and another frame is taken and given back. -/
theorem lastFrames_owned : OwnedAlong lastFrames
    [.dmaAlloc 1 (some 0x87ffe), .alloc (some 0x87fff), .dropTracker 0] := by
  refine (frames_owned_iff 0x87ffe _ ?_).mpr
    ⟨nofun,fun _ _ => ⟨nofun,fun _ _ => ⟨nofun,fun _ _ => trivial⟩⟩⟩
  refine .step dmaAlloc_allowed dmaAlloc_lastFrames (.step ?_ rfl (.step Nat.one_pos rfl trivial))
  intro ppn h
  cases h
  decide

/-- The frame of a buffer that the driver gave back is handed out again while the tracker of the
buffer is still in the queue: two live trackers hold it. -/
theorem buffer_shared :
    AllowedAlong lastFrames
      [.dmaAlloc 1 (some 0x87ffe), .dmaDealloc 0, .alloc (some 0x87ffe)] ∧
    ¬ OwnedAlong lastFrames [.dmaAlloc 1 (some 0x87ffe), .dmaDealloc 0, .alloc (some 0x87ffe)] ∧
    ∃ s s', (FrameOp.dmaDealloc 0).exec withBuffer = .ok () s ∧
      (FrameOp.alloc (some 0x87ffe)).exec s = .ok () s' ∧
      0x87ffe ∈ s'.held ∧ 0x87ffe ∈ s'.queueFrames := by
  have hgive : (FrameOp.dmaDealloc 0).exec withBuffer = .ok ()
      ⟨insert 0x87ffe (lastFrames.free \ {0x87ffe}),[],[0x87ffe],[]⟩ := rfl
  refine ⟨.step dmaAlloc_allowed dmaAlloc_lastFrames
    (.step Nat.one_pos hgive (.step ?_ rfl trivial)),?_,_,_,hgive,rfl,by decide,by decide⟩
  · intro ppn h
    cases h
    decide
  · intro h
    exact ((h.2.2 _ dmaAlloc_lastFrames).2.2 _ hgive).owner.2 0x87ffe (by decide) (by decide)

end Owners

section ContiguousRuns

/-- What `alloc_contiguous_frame` returns: the vector, whether the bitmap had a run or not. -/
def contiguousFrames (num : ℕ) (answer : Option ℕ) : FrameM (Option (List ℕ)) := do
  let frames ← allocContiguousFrame num answer
  pure (some frames)

def FreeRun (s : Frames) (num start : ℕ) : Prop := ∀ ppn ∈ List.range' start num, ppn ∈ s.free

/-- A vector holds a run that was free, and only its frames change; without a run there is no
vector. -/
def TakesRun (num : ℕ) (s : Frames) (r : Option (List ℕ)) (t : Frames) : Prop :=
  ((∀ start, ¬ FreeRun s num start) → r = none) ∧
  match r with
  | none => t.free = s.free
  | some v => ∃ start, v = List.range' start num ∧ FreeRun s num start ∧
      t.free = s.free \ v.toFinset

def bitmapCap : ℕ := 16 ^ 6

/-- `find_contiguous` for the alignment 1, number by number; `next` skips the numbers that are not
free. The count is that of the free numbers since the base. -/
def findContiguous (free : Finset ℕ) (size : ℕ) : ℕ → List ℕ → Option ℕ
  | _, [] => none
  | count, n :: rest =>
    if n ∈ free then
      if count + 1 = size then some (n + 1 - size) else findContiguous free size (count + 1) rest
    else findContiguous free size 0 rest

theorem findContiguous_ne_none {free : Finset ℕ} {size start : ℕ}
    (run : ∀ m ∈ List.range' start size, m ∈ free) : ∀ (k n count : ℕ), count < size → count ≤ n →
    n - count ≤ start → start + size ≤ n + k →
    findContiguous free size count (List.range' n k) ≠ none := by
  intro k
  induction k with
  | zero =>
    intro n count hcount hle hstart hend
    omega
  | succ k ih =>
    intro n count hcount hle hstart hend
    rw [List.range'_succ,findContiguous]
    split_ifs with hfree hlast
    · exact Option.some_ne_none _
    · exact ih (n + 1) (count + 1) (by omega) (by omega) (by omega) (by omega)
    · have hafter : n < start := by
        by_contra hle'
        exact hfree (run n (List.mem_range'_1.mpr (by omega)))
      exact ih (n + 1) 0 (by omega) (by omega) (by omega) (by omega)

/-- Whatever free run the bitmap answers with, the call is right exactly if it answers with one;
the bitmap of the kernel does if the state has one. -/
theorem contiguous_frames_iff (num : ℕ) (positive : 0 < num) (s : Frames) (answer : Option ℕ)
    (freeRun : ∀ start, answer = some start → FreeRun s num start) :
    (Holds (contiguousFrames num answer) s (TakesRun num s) (fun _ _ => True) ↔ answer ≠ none) ∧
    (s.free ⊆ Finset.range bitmapCap → answer = findContiguous s.free num 0 (List.range bitmapCap) →
      (answer ≠ none ↔ ∃ start, FreeRun s num start)) := by
  refine ⟨⟨?_,?_⟩,?_⟩
  · rintro h rfl
    obtain ⟨start,hv,-⟩ := (h : TakesRun num s (some []) s).2
    have hlen := congrArg List.length hv
    simp only [List.length_nil,List.length_range'] at hlen
    omega
  · intro hanswer
    refine (allocContiguousFrame_holds num answer s).bind ?_
    rintro r t (⟨hnone,-⟩ | ⟨start,hstart,rfl,rfl,-⟩)
    · exact absurd hnone hanswer
    · have hrun := freeRun start hstart
      exact holds_pure ⟨fun hnone => absurd hrun (hnone start),start,rfl,hrun,rfl⟩
  · intro hcap hfound
    generalize bitmapCap = cap at *
    subst hfound
    constructor
    · intro hsome
      obtain ⟨start,hstart⟩ := Option.ne_none_iff_exists'.mp hsome
      exact ⟨start,freeRun start hstart⟩
    · rintro ⟨start,hrun⟩
      have hlast := hcap (hrun (start + num - 1) (List.mem_range'_1.mpr (by omega)))
      rw [Finset.mem_range] at hlast
      rw [List.range_eq_range']
      exact findContiguous_ne_none hrun cap 0 0 positive le_rfl (by omega) (by omega)

theorem contiguous_frames_last : Holds (contiguousFrames 2 (some 0x87ffe)) lastFrames
    (TakesRun 2 lastFrames) (fun _ _ => True) := by
  refine (contiguous_frames_iff 2 (by decide) lastFrames _ ?_).1.mpr nofun
  rintro start ⟨⟩
  unfold FreeRun
  decide

/-- With no frame left the call still returns a vector, the empty one. -/
theorem contiguous_frames_exhausted :
    contiguousFrames 1 none (booted 0x88000) = .ok (some []) (booted 0x88000) ∧
      ¬ TakesRun 1 (booted 0x88000) (some []) (booted 0x88000) := by
  refine ⟨rfl,?_⟩
  rintro ⟨-,start,h,-⟩
  cases h

end ContiguousRuns

section KernelStacks

def kernelStackSize : ℕ := 1024 * 1024
def kernelHeapSize : ℕ := 0xc0_0000

/-- The heap is a static array of the kernel. -/
structure KernelImage where
  ekernel : ℕ
  heap : ℕ
  heap_ge : phyToVirtOffset ≤ heap
  heap_le : heap + kernelHeapSize ≤ ekernel
  ekernel_le : ekernel ≤ vaddrHigh

/-- The first number that `init_frame_allocator` inserts. -/
def KernelImage.startPpn (image : KernelImage) : ℕ :=
  ((image.ekernel - phyToVirtOffset) >>> pageSizeBits) + 1

structure Kstack where
  frames : List ℕ
  /-- `frames.as_ptr()` -/
  asPtr : ℕ

def initKernelStack (answer : Option ℕ) (asPtr : ℕ) : FrameM Kstack := do
  match ← contiguousFrames (kernelStackSize / pageSize) answer with
  | some frames => pure ⟨frames, asPtr⟩
  | none => throw .explicit

def Kstack.kstackTopPtr (k : Kstack) : ℕ := wrappingAdd k.asPtr kernelStackSize

/-- An empty vector has no buffer; its pointer is the alignment of the trackers. -/
def Kstack.PlacedIn (image : KernelImage) (k : Kstack) : Prop :=
  if k.frames = [] then k.asPtr = 8
  else image.heap ≤ k.asPtr ∧ k.asPtr < image.heap + kernelHeapSize

def physToVirt (paddr : ℕ) : ℕ := paddr ||| phyToVirtOffset

/-- The stack is the direct-mapped image of its frames. -/
def Kstack.InOwnFrames (k : Kstack) : Prop :=
  ∀ a, (k.kstackTopPtr - kernelStackSize ≤ a ∧ a < k.kstackTopPtr) ↔
    ∃ ppn ∈ k.frames, physToVirt (ppnToPhys ppn) ≤ a ∧ a < physToVirt (ppnToPhys ppn) + pageSize

theorem physToVirt_frame (h : ppn ∈ (booted i).free) :
    physToVirt (ppnToPhys ppn) = ppn * 4096 + phyToVirtOffset ∧ i ≤ ppn := by
  obtain ⟨hge,hlt⟩ := Finset.mem_Ico.mp h
  have hend : memoryEnd >>> pageSizeBits = 0x88000 := by decide
  have hor := Nat.shiftLeft_add_eq_or_of_lt (show ppn * 4096 < 2 ^ 32 by omega) 0xffff_ffff
  refine ⟨?_,hge⟩
  rw [physToVirt,ppnToPhys_of_lt (by omega),Nat.or_comm,Nat.add_comm]
  exact hor.symm

/-- The first byte of the stack is in the heap, where no frame is mapped. -/
theorem Kstack.elsewhere {image : KernelImage} {k : Kstack} (hplaced : k.PlacedIn image)
    (hframes : ∀ ppn ∈ k.frames, ppn ∈ (booted image.startPpn).free) : ¬ k.InOwnFrames := by
  intro h
  obtain ⟨hge,hle,hhigh⟩ := And.intro image.heap_ge (And.intro image.heap_le image.ekernel_le)
  have hptr : k.asPtr + kernelStackSize < wordSize ∧
      (k.frames = [] ∨ k.asPtr < image.ekernel) := by
    unfold Kstack.PlacedIn at hplaced
    unfold kernelStackSize wordSize
    unfold kernelHeapSize at *
    unfold vaddrHigh phyToVirtOffset at *
    split_ifs at hplaced <;> omega
  have htop : k.kstackTopPtr = k.asPtr + kernelStackSize := Nat.mod_eq_of_lt hptr.1
  obtain ⟨ppn,hppn,hbyte,-⟩ := (h k.asPtr).mp (by rw [htop]; unfold kernelStackSize; omega)
  obtain ⟨hvirt,hstart⟩ := physToVirt_frame (hframes ppn hppn)
  have hlow : k.asPtr < image.ekernel := hptr.2.resolve_left (List.ne_nil_of_mem hppn)
  rw [KernelImage.startPpn,Nat.shiftRight_eq_div_pow] at hstart
  unfold pageSizeBits at hstart
  omega

theorem kernel_stack_elsewhere (image : KernelImage) (answer : Option ℕ) (asPtr : ℕ)
    (s t : Frames) (k : Kstack)
    (inserted : ∀ start, answer = some start →
      FreeRun (booted image.startPpn) (kernelStackSize / pageSize) start)
    (created : initKernelStack answer asPtr s = .ok k t) (placed : k.PlacedIn image) :
    ¬ k.InOwnFrames := by
  apply Kstack.elsewhere placed
  have hk : Holds (initKernelStack answer asPtr) s
      (fun k _ => ∀ ppn ∈ k.frames, ppn ∈ (booted image.startPpn).free) fun _ _ => True := by
    refine Holds.bind (Holds.bind (allocContiguousFrame_holds _ _ _) fun r t h =>
      holds_pure (Q := fun r _ => ∃ frames, r = some frames ∧
        ∀ ppn ∈ frames, ppn ∈ (booted image.startPpn).free) ⟨r,rfl,?_⟩) ?_
    · obtain ⟨-,rfl,-⟩ | ⟨start,hstart,rfl,-⟩ := h
      · exact nofun
      · exact inserted start hstart
    · rintro _ t ⟨frames,rfl,hframes⟩
      exact holds_pure hframes
  exact hk.of_ok created

def smallImage : KernelImage :=
  ⟨0xffff_ffff_8100_0000, 0xffff_ffff_8030_0000, by decide, by decide, by decide⟩

theorem mapM_new_ok {ppns : List ℕ} {s : Frames}
    (h : ∀ ppn ∈ ppns, checkPaddr (ppnToPhys ppn) = true) :
    ppns.mapM FrameTracker.new s = .ok ppns s := by
  induction ppns with
  | nil => rfl
  | cons ppn ppns ih =>
    obtain ⟨hppn,hppns⟩ := List.forall_mem_cons.mp h
    rw [List.mapM_cons]
    exact (bind_ok ((guarded_eq ..).trans (if_pos hppn))).trans ((bind_ok (ih hppns)).trans rfl)

theorem initKernelStack_ok {start asPtr : ℕ} {s : Frames}
    (h : ∀ ppn ∈ List.range' start (kernelStackSize / pageSize),
      checkPaddr (ppnToPhys ppn) = true) :
    ∃ t, initKernelStack (some start) asPtr s =
      .ok ⟨List.range' start (kernelStackSize / pageSize), asPtr⟩ t := by
  unfold initKernelStack
  generalize kernelStackSize / pageSize = n at *
  have halloc : allocContiguousFrame n (some start) s = .ok (List.range' start n)
      { s with free := s.free \ (List.range' start n).toFinset } := mapM_new_ok h
  have hframes : contiguousFrames n (some start) s = .ok (some (List.range' start n)) _ :=
    bind_ok halloc
  exact ⟨_,bind_ok hframes⟩

def firstStack : Kstack := ⟨List.range' 0x81001 256, smallImage.heap⟩

theorem firstStack_created : ∃ t, initKernelStack (some 0x81001) smallImage.heap
    (booted smallImage.startPpn) = .ok firstStack t := initKernelStack_ok (by decide +kernel)

theorem firstStack_placed : firstStack.PlacedIn smallImage := Eq.mpr (if_neg nofun) (by decide)

theorem firstStack_free : FreeRun (booted smallImage.startPpn) (kernelStackSize / pageSize)
    0x81001 := by
  intro ppn h
  obtain ⟨hge,hlt⟩ := List.mem_range'_1.mp h
  exact Finset.mem_Ico.mpr ⟨hge,hlt.trans (by decide)⟩

/-- The first stack after boot. -/
theorem kernel_stack_elsewhere_first : ¬ firstStack.InOwnFrames := by
  obtain ⟨t,ht⟩ := firstStack_created
  refine kernel_stack_elsewhere smallImage _ _ _ t _ ?_ ht firstStack_placed
  rintro start ⟨⟩
  exact firstStack_free

/-- Its vector starts the heap, and so does its range. -/
theorem kernel_stack_in_heap :
    (∃ t, initKernelStack (some 0x81001) smallImage.heap (booted smallImage.startPpn) =
      .ok firstStack t) ∧ firstStack.PlacedIn smallImage ∧ ¬ firstStack.InOwnFrames :=
  ⟨firstStack_created,firstStack_placed,Kstack.elsewhere firstStack_placed firstStack_free⟩

end KernelStacks

end DuckOs.FrameTrackers
