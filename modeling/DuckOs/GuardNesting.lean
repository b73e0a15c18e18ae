import DuckOs.HartModel

namespace DuckOs.GuardNesting
open ExecutionRules AddressModel HartModel

section Bits

variable {r : BitVec 64} {i : ℕ}

theorem getLsbD_mask (hi : i < 64) (j : ℕ) : (1#64 <<< i).getLsbD j = decide (j = i) := by
  by_cases h : j = i
  · simp [h,hi]
  · have : j < i ∨ j - i ≠ 0 := by omega
    rcases this with h' | h' <;> simp [h,h']

theorem getLsbD_setBit (hi : i < 64) : (setBit r i).getLsbD i = true := by
  simp [setBit,getLsbD_mask hi]

theorem getLsbD_clearBit (hi : i < 64) : (clearBit r i).getLsbD i = false := by
  simp [clearBit,hi]

end Bits

section UserMemory

@[simp] theorem readSum_eq_false (r : BitVec 64) : readSum r = false := by
  unfold readSum
  rw [beq_eq_false_iff_ne]
  intro h
  have hbit := congrArg (fun v => v.getLsbD 0) h
  simp [sumBit] at hbit

@[simp] theorem sum_sumOn (h : Hart) : h.sumOn.sum = true := by
  have hset : (setBit h.sstatus sumBit).getLsbD sumBit = true := getLsbD_setBit (by decide)
  unfold Hart.sumOn Hart.sum
  split <;> simpa using hset

@[simp] theorem sumStatus_sumOn (h : Hart) : h.sumOn.env.sumStatus = 1 := by
  unfold Hart.sumOn
  split
  · rename_i hz
    simp [hz]
  · simp

theorem sum_sumOff {h : Hart} (hs : h.env.sumStatus = 1) : h.sumOff.sum = false := by
  have hclear : (clearBit h.sstatus sumBit).getLsbD sumBit = false := getLsbD_clearBit (by decide)
  unfold Hart.sumOff Hart.sum
  simpa [hs] using hclear

theorem sumStatus_sumOff {h : Hart} (hs : h.env.sumStatus = 1) : h.sumOff.env.sumStatus = 0 := by
  simp [Hart.sumOff,hs]

/-- User memory is open exactly while a guard is alive. -/
def Matches (s : SumGuards) : Prop := s.hart.sum = true ↔ s.alive.Nonempty

/-- Dropping a guard takes the counter below zero. -/
def Underflows (s : SumGuards) : SumOp → Prop
  | .new _ => False
  | .drop _ => s.hart.env.sumStatus = 0

/-- Each guard of the sequence is made once, and dropped once before the end. -/
def Proper : SumGuards → List SumOp → Prop
  | s, [] => s.alive = ∅
  | s, op :: ops => op.Proper s ∧ Proper (op.step s) ops

/-- The bit matches the guards all along, and the counter never underflows. -/
def NestsAlong : SumGuards → List SumOp → Prop
  | s, [] => Matches s
  | s, op :: ops => Matches s ∧ ¬ Underflows s op ∧ NestsAlong (op.step s) ops

/-- No guard is made while another one is alive. -/
def OneAtATime : SumGuards → List SumOp → Prop
  | _, [] => True
  | s, op :: ops => (∀ guard, op = .new guard → s.alive = ∅) ∧ OneAtATime (op.step s) ops

variable {s : SumGuards}

/-- No guard, and one guard: the states in which the counter is right. -/
structure Closed (s : SumGuards) : Prop where
  alive : s.alive = ∅
  sum : s.hart.sum = false
  status : s.hart.env.sumStatus = 0

structure Opened (s : SumGuards) : Prop where
  sum : s.hart.sum = true
  status : s.hart.env.sumStatus = 1

theorem Closed.matches (h : Closed s) : Matches s := by simp [Matches,h.alive,h.sum]

theorem opened_new (s : SumGuards) (guard : ℕ) : Opened ((SumOp.new guard).step s) :=
  ⟨sum_sumOn _,sumStatus_sumOn _⟩

theorem not_nestsAlong : ∀ {s : SumGuards} {ops : List SumOp}, Opened s → 1 < s.alive.card →
    Proper s ops → ¬ NestsAlong s ops := by
  intro s ops
  induction ops generalizing s with
  | nil =>
    intro _ hcard hp _
    simp [show s.alive = ∅ from hp] at hcard
  | cons op ops ih =>
    intro ho hcard hp hn
    cases op with
    | new guard =>
      refine ih (opened_new s guard) ?_ hp.2 hn.2.2
      calc 1 < s.alive.card := hcard
        _ ≤ (insert guard s.alive).card := Finset.card_le_card (Finset.subset_insert guard _)
    | drop guard =>
      have hclosed : ((SumOp.drop guard).step s).hart.sum = false := sum_sumOff ho.status
      have halive : (s.alive.erase guard).Nonempty := by
        rw [← Finset.card_pos,Finset.card_erase_of_mem hp.1]
        omega
      have hm : Matches ((SumOp.drop guard).step s) := by
        cases ops with
        | nil => exact hn.2.2
        | cons op' ops' => exact hn.2.2.1
      rw [hm.mpr halive] at hclosed
      cases hclosed

theorem nestsAlong_closed : ∀ {ops : List SumOp} {s : SumGuards},
    (Closed s → Proper s ops → (NestsAlong s ops ↔ OneAtATime s ops)) ∧
    (∀ guard, Opened s → s.alive = {guard} → Proper s ops →
      (NestsAlong s ops ↔ OneAtATime s ops)) := by
  intro ops
  induction ops with
  | nil =>
    intro s
    refine ⟨fun hc _ => iff_of_true hc.matches trivial,?_⟩
    intro guard _ ha hp
    rw [show s.alive = ∅ from hp] at ha
    exact absurd ha.symm (Finset.singleton_ne_empty guard)
  | cons op ops ih =>
    intro s
    constructor
    · intro hc hp
      cases op with
      | new guard =>
        have ha : ((SumOp.new guard).step s).alive = {guard} := by
          simp [SumOp.step,hc.alive]
        have hrest := ih.2 guard (opened_new s guard) ha hp.2
        simp only [NestsAlong,OneAtATime,hrest]
        exact ⟨fun h => ⟨fun _ _ => hc.alive,h.2.2⟩,fun h => ⟨hc.matches,fun h => h,h.2⟩⟩
      | drop guard =>
        have hg : guard ∈ s.alive := hp.1
        simp [hc.alive] at hg
    · intro guard ho ha hp
      cases op with
      | new guard' =>
        refine iff_of_false ?_ ?_
        · intro hn
          have hnew : guard' ∉ s.alive := hp.1
          have hcard : 1 < (insert guard' s.alive).card := by
            rw [Finset.card_insert_of_notMem hnew,ha,Finset.card_singleton]
            decide
          exact not_nestsAlong (opened_new s guard') hcard hp.2 hn.2.2
        · intro h
          have hempty := h.1 guard' rfl
          rw [ha] at hempty
          exact Finset.singleton_ne_empty guard hempty
      | drop guard' =>
        have hg : guard' ∈ s.alive := hp.1
        obtain rfl : guard' = guard := by simpa [ha] using hg
        have hc : Closed ((SumOp.drop guard').step s) :=
          ⟨by simp [SumOp.step,ha],sum_sumOff ho.status,sumStatus_sumOff ho.status⟩
        have hmatch : Matches s := by simp [Matches,ho.sum,ha]
        have hunder : ¬ Underflows s (.drop guard') := by simp [Underflows,ho.status]
        have hrest := ih.1 hc hp.2
        simp only [NestsAlong,OneAtATime,hrest]
        exact ⟨fun h => ⟨fun _ he => SumOp.noConfusion he,h.2.2⟩,fun h => ⟨hmatch,hunder,h.2⟩⟩

/-- Starting with user memory closed, a sequence of guards keeps the bit and the counter right
exactly if its guards do not nest. -/
theorem sum_guards_nest_iff (ops : List SumOp) (s : SumGuards) (start : Closed s)
    (proper : Proper s ops) : NestsAlong s ops ↔ OneAtATime s ops :=
  nestsAlong_closed.1 start proper

/-- A hart as it starts, with user memory closed. -/
def freshGuards : SumGuards := ⟨⟨0, Env.empty, Cpu.new⟩, ∅⟩

/-- Writing to the console twice opens user memory twice, once after the other. -/
theorem console_guard_nests : NestsAlong freshGuards [.new 0, .drop 0, .new 1, .drop 1] :=
  (sum_guards_nest_iff [.new 0,.drop 0,.new 1,.drop 1] freshGuards ⟨rfl,by decide,rfl⟩
    (by simp [Proper,SumOp.Proper,SumOp.step,freshGuards])).mpr
    (by simp [OneAtATime,SumOp.step,freshGuards])

/-- A system call that holds a guard around the guard of the console loses its access to user
memory when the inner guard goes, and its own drop underflows. -/
theorem nested_guard_closes :
    Closed freshGuards ∧ Proper freshGuards [.new 0, .new 1, .drop 1, .drop 0] ∧
      ¬ Matches (freshGuards.run [.new 0, .new 1, .drop 1]) ∧
      Underflows (freshGuards.run [.new 0, .new 1, .drop 1]) (.drop 0) ∧
      ¬ NestsAlong freshGuards [.new 0, .new 1, .drop 1, .drop 0] := by
  have hlost : ¬ Matches (freshGuards.run [.new 0,.new 1,.drop 1]) := by
    unfold Matches
    decide
  have hzero : Underflows (freshGuards.run [.new 0,.new 1,.drop 1]) (.drop 0) := by
    unfold Underflows
    decide
  refine ⟨⟨rfl,by decide,rfl⟩,?_,hlost,hzero,fun h => hlost h.2.2.2.2.2.2.1⟩
  simp [Proper,SumOp.Proper,SumOp.step,freshGuards]

end UserMemory

section Interrupts

/-- How many calls of `lock` the hart is in. -/
def Phase.calls : Phase → ℕ
  | .idle => 0
  | _ => 1

/-- What holds between the depth, the register and the guards in every state of a run that starts
with interrupts as in `on`. -/
structure LockInv (on : Bool) (s : Locks) : Prop where
  depth : s.hart.cpu.noff = s.guards.card + Phase.calls s.phase
  outside : s.hart.cpu.noff = 0 → s.hart.sie = on
  inside : s.hart.cpu.noff ≠ 0 → s.hart.sie = false ∧ s.hart.cpu.interruptEnable = on
  held : ∀ l ∈ s.guards, s.busy l = true

variable {on : Bool} {s : Locks}

theorem wrappingI32_eq {x : ℤ} (h0 : 0 ≤ x) (h : x < 2 ^ 31) : wrappingI32 x = x := by
  exact Int.bmod_eq_of_le (by omega) (by omega)

theorem LockInv.noff_lt (h : LockInv on s) :
    0 ≤ s.hart.cpu.noff ∧ s.hart.cpu.noff + 1 < 2 ^ 31 := by
  have hcard : s.guards.card ≤ paddrHigh - paddrLow := by
    simpa using Finset.card_le_univ s.guards
  have hcalls : Phase.calls s.phase ≤ 1 := by cases s.phase <;> simp [Phase.calls]
  have hram : paddrHigh - paddrLow + 2 < 2 ^ 31 := by decide
  rw [h.depth]
  omega

structure Deeper (on : Bool) (h h' : Hart) : Prop where
  noff : h'.cpu.noff = h.cpu.noff + 1
  sie : h'.sie = false
  saved : h'.cpu.interruptEnable = on

theorem LockInv.pushOff (h : LockInv on s) : Deeper on s.hart s.hart.pushOff := by
  obtain ⟨hnonneg,hlt⟩ := h.noff_lt
  refine ⟨wrappingI32_eq (by omega) hlt,getLsbD_clearBit (by decide),?_⟩
  change (if s.hart.cpu.noff = 0 then s.hart.sie else s.hart.cpu.interruptEnable) = on
  split_ifs with hz
  · exact h.outside hz
  · exact (h.inside hz).2

theorem pushOn_ok {h : Hart} (hpos : 1 ≤ h.cpu.noff) (hlt : h.cpu.noff < 2 ^ 31)
    (hoff : h.sie = false) (hsaved : h.cpu.interruptEnable = on) :
    ∃ h', h.pushOn = .ok h' ∧ h'.cpu.noff = h.cpu.noff - 1 ∧ h'.cpu.interruptEnable = on ∧
      h'.sie = if h.cpu.noff = 1 then on else false := by
  have hw : wrappingI32 (h.cpu.noff - 1) = h.cpu.noff - 1 := wrappingI32_eq (by omega) (by omega)
  have hset : (setBit h.sstatus sieBit).getLsbD sieBit = true := getLsbD_setBit (by decide)
  have hkeep : h.sstatus.getLsbD sieBit = false := hoff
  have hguard : ¬ (h.sie = true ∨ h.cpu.noff < 1) := by
    simp [hoff]
    omega
  unfold Hart.pushOn
  rw [if_neg hguard,hw]
  refine ⟨_,rfl,rfl,hsaved,?_⟩
  unfold Hart.sie
  by_cases hone : h.cpu.noff = 1
  · cases on <;> simp [hone,hsaved,hset,hkeep]
  · have hne : ¬ h.cpu.noff - 1 = 0 := by omega
    simp [hone,hne,hkeep]

theorem LockInv.of_depth {hart : Hart} {busy : LockAddr → Bool} {guards : Finset LockAddr}
    {phase : Phase} (hdepth : hart.cpu.noff = guards.card + Phase.calls phase)
    (hpos : hart.cpu.noff ≠ 0) (hoff : hart.sie = false) (hsaved : hart.cpu.interruptEnable = on)
    (hheld : ∀ l ∈ guards, busy l = true) : LockInv on ⟨hart, busy, guards, phase⟩ :=
  ⟨hdepth,fun hz => absurd hz hpos,fun _ => ⟨hoff,hsaved⟩,hheld⟩

theorem held_acquire (h : LockInv on s) (l : LockAddr) :
    ∀ l' ∈ insert l s.guards, Function.update s.busy l true l' = true := by
  intro l' hl'
  by_cases he : l' = l
  · rw [he,Function.update_self]
  · rw [Function.update_of_ne he]
    exact h.held l' (Finset.mem_of_mem_insert_of_ne hl' he)

theorem LockInv.notMem (h : LockInv on s) {l : LockAddr} (hfree : ¬ s.busy l = true) :
    l ∉ s.guards := fun hl => hfree (h.held l hl)

/-- What a step of the hart leads to: the invariant, or the panic of the spin loop. -/
def Keeps (on : Bool) : Except Panic Locks → Prop
  | .ok s => LockInv on s
  | .error e => e = .deadlock

section

variable (h : LockInv on s)
include h

theorem lock_keeps (l : LockAddr) (hidle : s.phase = .idle) :
    Keeps on ((LockOp.lock l).step .SpinNoIrq s) := by
  have hd := h.pushOff
  have hdepth := h.depth
  rw [hidle] at hdepth
  refine LockInv.of_depth ?_ ?_ hd.sie hd.saved h.held
  · change s.hart.pushOff.cpu.noff = s.guards.card + ((1 : ℕ) : ℤ)
    rw [hd.noff,hdepth]
    simp [Phase.calls]
  · have := h.noff_lt.1
    change s.hart.pushOff.cpu.noff ≠ 0
    rw [hd.noff]
    omega

theorem spin_keeps : Keeps on s.spin := by
  unfold Locks.spin
  cases hp : s.phase with
  | idle => exact h
  | spinning l count =>
    have hdepth := h.depth
    rw [hp] at hdepth
    dsimp only
    split
    · split
      · rfl
      · exact ⟨hdepth,h.outside,h.inside,h.held⟩
    · exact ⟨hdepth,h.outside,h.inside,h.held⟩
  | exchanging l =>
    have hdepth := h.depth
    rw [hp] at hdepth
    dsimp only
    split_ifs with hfree
    · exact ⟨hdepth,h.outside,h.inside,h.held⟩
    · refine ⟨?_,h.outside,h.inside,held_acquire h l⟩
      change s.hart.cpu.noff = ((insert l s.guards).card : ℤ) + ((0 : ℕ) : ℤ)
      rw [Finset.card_insert_of_notMem (h.notMem hfree),hdepth]
      simp [Phase.calls]

theorem tryLock_keeps (l : LockAddr) (hidle : s.phase = .idle) :
    Keeps on (s.tryLock .SpinNoIrq l) := by
  have hd := h.pushOff
  have hbound := h.noff_lt
  have hnoff := hd.noff
  unfold Locks.tryLock
  dsimp only [MutexAction.beforeLock,MutexAction.afterLock]
  split_ifs with hfree
  · -- the flag is set: both hooks run and the hart is as before
    obtain ⟨h',he,hn,hsaved,hsie⟩ :=
      pushOn_ok (h := s.hart.pushOff) (by omega) (by omega) hd.sie hd.saved
    rw [he]
    refine ⟨?_,?_,?_,h.held⟩
    · change h'.cpu.noff = _
      rw [hn,hnoff,← h.depth]
      ring
    · intro hz
      have hone : s.hart.pushOff.cpu.noff = 1 := by
        have : h'.cpu.noff = 0 := hz
        omega
      rw [hsie,if_pos hone]
    · intro hz
      have hone : ¬ s.hart.pushOff.cpu.noff = 1 := by
        have : h'.cpu.noff ≠ 0 := hz
        omega
      exact ⟨by change h'.sie = false; rw [hsie,if_neg hone],hsaved⟩
  · refine LockInv.of_depth ?_ ?_ hd.sie hd.saved (held_acquire h l)
    · rw [hnoff,Finset.card_insert_of_notMem (h.notMem hfree),h.depth,hidle]
      simp [Phase.calls]
    · rw [hnoff]
      omega

theorem dropGuard_keeps {l : LockAddr} (hl : l ∈ s.guards) :
    Keeps on (s.dropGuard .SpinNoIrq l) := by
  have hbound := h.noff_lt
  have hcard : 0 < s.guards.card := Finset.card_pos.mpr ⟨l,hl⟩
  have hdepth := h.depth
  have hpos : s.hart.cpu.noff ≠ 0 := by
    omega
  obtain ⟨hoff,hsaved⟩ := h.inside hpos
  obtain ⟨h',he,hn,hsaved',hsie⟩ := pushOn_ok (by omega) (by omega) hoff hsaved
  unfold Locks.dropGuard
  dsimp only [MutexAction.afterLock]
  rw [he]
  refine ⟨?_,?_,?_,?_⟩
  · change h'.cpu.noff = ((s.guards.erase l).card : ℤ) + (Phase.calls s.phase : ℤ)
    rw [hn,hdepth,Finset.card_erase_of_mem hl,Nat.cast_sub hcard]
    ring
  · intro hz
    have hone : s.hart.cpu.noff = 1 := by
      have : h'.cpu.noff = 0 := hz
      omega
    rw [hsie,if_pos hone]
  · intro hz
    have hone : ¬ s.hart.cpu.noff = 1 := by
      have : h'.cpu.noff ≠ 0 := hz
      omega
    exact ⟨by change h'.sie = false; rw [hsie,if_neg hone],hsaved'⟩
  · intro l' hl'
    obtain ⟨hne,hmem⟩ := Finset.mem_erase.mp hl'
    change Function.update s.busy l false l' = true
    rw [Function.update_of_ne hne]
    exact h.held l' hmem

theorem step_keeps (op : LockOp) (he : op.Enabled s) : Keeps on (op.step .SpinNoIrq s) := by
  cases op with
  | lock l => exact lock_keeps h l he
  | spin => exact spin_keeps h
  | tryLock l => exact tryLock_keeps h l he
  | dropGuard l => exact dropGuard_keeps h he.2
  | others l flag =>
    refine ⟨h.depth,h.outside,h.inside,?_⟩
    intro l' hl'
    have hne : l' ≠ l := fun e => he (e ▸ hl')
    change Function.update s.busy l flag l' = true
    rw [Function.update_of_ne hne]
    exact h.held l' hl'

theorem exec_keeps (op : LockOp) (he : op.Enabled s) :
    Holds (op.exec .SpinNoIrq ()) s (fun _ => LockInv on) fun e _ => e = .deadlock := by
  have hk := step_keeps h op he
  unfold Holds LockOp.exec
  cases hs : op.step .SpinNoIrq s with
  | ok s' => rw [hs] at hk; exact hk
  | error e => rw [hs] at hk; exact hk

end

/-- A hart that holds no lock and is in no call. -/
structure Unlocked (s : Locks) : Prop where
  guards : s.guards = ∅
  phase : s.phase = .idle
  noff : s.hart.cpu.noff = 0

theorem Unlocked.lockInv (h : Unlocked s) : LockInv s.hart.sie s :=
  ⟨by simp [h.guards,h.phase,h.noff,Phase.calls],fun _ => rfl,fun hn => absurd h.noff hn,
    by simp [h.guards]⟩

/-- Interrupts against the guards held, `s₀` being the state before the first guard. -/
structure Nested (s₀ s : Locks) : Prop where
  off : s.guards.Nonempty → s.hart.sie = false
  depth : s.phase = .idle → s.hart.cpu.noff = s.guards.card
  waiting : s.phase ≠ .idle → s.hart.sie = false ∧ s.hart.cpu.noff = s.guards.card + 1
  restored : s.phase = .idle → s.guards = ∅ → s.hart.sie = s₀.hart.sie

theorem LockInv.nested {s₀ : Locks} (h : LockInv s₀.hart.sie s) : Nested s₀ s := by
  have hdepth := h.depth
  refine ⟨?_,?_,?_,?_⟩
  · intro hg
    have hcard := Finset.card_pos.mpr hg
    exact (h.inside (by omega)).1
  · intro hidle
    simpa [hidle,Phase.calls] using hdepth
  · intro hbusy
    have hcalls : Phase.calls s.phase = 1 := by
      cases hp : s.phase with
      | idle => exact absurd hp hbusy
      | spinning l count => rfl
      | exchanging l => rfl
    rw [hcalls] at hdepth
    exact ⟨(h.inside (by omega)).1,hdepth⟩
  · intro hidle hempty
    exact h.outside (by simpa [hidle,hempty,Phase.calls] using hdepth)

/-- However locks are taken and guards dropped on one hart, and whatever the other harts do with
the locks it does not hold, its interrupts are off while it holds a guard, the depth counts the
guards, the first state's interrupts come back with the last guard, and `push_on` never fails. -/
theorem spin_guards_nest (s₀ s : Locks) (start : Unlocked s₀)
    (run : Runs (LockOp.exec .SpinNoIrq) (fun op _ s => op.Enabled s) () s₀ () s) :
    Nested s₀ s ∧ ∀ op : LockOp, op.Enabled s → op.step .SpinNoIrq s ≠ .error .todo := by
  have hinv : LockInv s₀.hart.sie s :=
    run.invariant (fun _ s => LockInv s₀.hart.sie s)
      (fun op _ _ h he => (exec_keeps h op he).orAny)
      start.lockInv
  refine ⟨hinv.nested,?_⟩
  intro op he hfail
  have hk := step_keeps hinv op he
  rw [hfail] at hk
  cases hk

/-- A hart with its interrupts on. -/
def listening : Locks := ⟨⟨setBit 0 sieBit, Env.empty, Cpu.new⟩, fun _ => false, ∅, .idle⟩

def firstLock : LockAddr := ⟨0, by decide⟩

def secondLock : LockAddr := ⟨1, by decide⟩

/-- One lock is taken and another one tried without success while it is held. -/
theorem tried_guards_nest : ∃ s, s.guards = {firstLock} ∧ Nested listening s ∧
    ∀ op : LockOp, op.Enabled s → op.step .SpinNoIrq s ≠ .error .todo :=
  ⟨_,rfl,spin_guards_nest listening _ ⟨rfl,rfl,rfl⟩
    (Runs.of_guarded .assertion
      [.lock firstLock,.spin,.spin,.others secondLock true,.tryLock secondLock] .refl rfl)⟩

end Interrupts

end DuckOs.GuardNesting
