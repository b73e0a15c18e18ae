import DuckOs.AddressModel

/-! What one hart keeps about itself: the `sstatus` register, the counter of the guards for user
memory, and the depth of the sections without interrupts with the spin locks that open them. -/
namespace DuckOs.HartModel
open AddressModel Function

def sieBit : ℕ := 1

def sumBit : ℕ := 18

/-- `csrs` with a mask of one bit. -/
def setBit (sstatus : BitVec 64) (i : ℕ) : BitVec 64 := sstatus ||| 1#64 <<< i

/-- `csrc` with a mask of one bit. -/
def clearBit (sstatus : BitVec 64) (i : ℕ) : BitVec 64 := sstatus &&& ~~~(1#64 <<< i)

/-- The `usize` counter wraps in the release build. -/
structure Env where
  sumStatus : BitVec 64
  deriving DecidableEq

def Env.empty : Env := ⟨0⟩

/-- An `i32` depth wraps in the release build. -/
structure Cpu where
  noff : ℤ
  interruptEnable : Bool
  deriving DecidableEq

def Cpu.new : Cpu := ⟨0, false⟩

def wrappingI32 (x : ℤ) : ℤ := x.bmod (2 ^ 32)

structure Hart where
  sstatus : BitVec 64
  env : Env
  cpu : Cpu
  deriving DecidableEq

def Hart.sie (h : Hart) : Bool := h.sstatus.getLsbD sieBit

def Hart.sum (h : Hart) : Bool := h.sstatus.getLsbD sumBit

/-- The masked register is compared with `1`, not with the mask. -/
def readSum (sstatus : BitVec 64) : Bool := sstatus &&& 1#64 <<< sumBit == 1#64

def Hart.sumOn (h : Hart) : Hart :=
  if h.env.sumStatus = 0 then
    { h with sstatus := setBit h.sstatus sumBit, env := ⟨h.env.sumStatus + 1⟩ }
  else if !readSum h.sstatus then
    -- meant for a SUM bit lost in a task switch
    { h with sstatus := setBit h.sstatus sumBit, env := ⟨0 + 1⟩ }
  else { h with env := ⟨h.env.sumStatus + 1⟩ }

def Hart.sumOff (h : Hart) : Hart :=
  { h with
    sstatus := if h.env.sumStatus = 1 then clearBit h.sstatus sumBit else h.sstatus
    env := ⟨h.env.sumStatus - 1⟩ }

/-- The hart with the `SumGuard`s that are alive on it. -/
structure SumGuards where
  hart : Hart
  alive : Finset ℕ

inductive SumOp where
  | new (guard : ℕ)
  | drop (guard : ℕ)

def SumOp.step (s : SumGuards) : SumOp → SumGuards
  | .new guard => ⟨s.hart.sumOn, insert guard s.alive⟩
  | .drop guard => ⟨s.hart.sumOff, s.alive.erase guard⟩

/-- A guard is made once and dropped while it is alive. -/
def SumOp.Proper (s : SumGuards) : SumOp → Prop
  | .new guard => guard ∉ s.alive
  | .drop guard => guard ∈ s.alive

def SumGuards.run (s : SumGuards) (ops : List SumOp) : SumGuards := ops.foldl SumOp.step s

def Hart.pushOff (h : Hart) : Hart :=
  { h with
    sstatus := clearBit h.sstatus sieBit
    cpu :=
      { noff := wrappingI32 (h.cpu.noff + 1)
        interruptEnable := if h.cpu.noff = 0 then h.sie else h.cpu.interruptEnable } }

def Hart.pushOn (h : Hart) : Except Panic Hart :=
  if h.sie ∨ h.cpu.noff < 1 then .error .todo
  else
    let noff := wrappingI32 (h.cpu.noff - 1)
    .ok { h with
      sstatus := if noff = 0 ∧ h.cpu.interruptEnable then setBit h.sstatus sieBit else h.sstatus
      cpu := { h.cpu with noff := noff } }

/-- The two kinds of spin locks differ in what they do around the lock. -/
inductive MutexAction where
  | SpinIrq
  | SpinNoIrq
  deriving DecidableEq

def MutexAction.beforeLock : MutexAction → Hart → Hart
  | .SpinIrq, h => h
  | .SpinNoIrq, h => h.pushOff

def MutexAction.afterLock : MutexAction → Hart → Except Panic Hart
  | .SpinIrq, h => .ok h
  | .SpinNoIrq, h => h.pushOn

/-- A lock has its flag in a byte of the kernel's memory, which tells it from all others. -/
abbrev LockAddr := Fin (paddrHigh - paddrLow)

/-- Where the hart is in the loop of `lock`. -/
inductive Phase where
  | idle
  | spinning (l : LockAddr) (count : ℕ)
  | exchanging (l : LockAddr)
  deriving DecidableEq

/-- The hart, the flags of all locks and the guards that the hart holds. -/
structure Locks where
  hart : Hart
  busy : LockAddr → Bool
  guards : Finset LockAddr
  phase : Phase

inductive LockOp where
  | lock (l : LockAddr)
  | spin
  | tryLock (l : LockAddr)
  | dropGuard (l : LockAddr)
  | others (l : LockAddr) (flag : Bool)

def Locks.acquire (s : Locks) (l : LockAddr) : Locks :=
  { s with busy := update s.busy l true, guards := insert l s.guards, phase := .idle }

def spinLimit : ℕ := 0x1000_0000

/-- One load of the flag, or the exchange that follows a load of `false`. -/
def Locks.spin (s : Locks) : Except Panic Locks :=
  match s.phase with
  | .idle => .ok s
  | .spinning l count =>
    if s.busy l then
      if count + 1 = spinLimit then .error .deadlock
      else .ok { s with phase := .spinning l (count + 1) }
    else .ok { s with phase := .exchanging l }
  | .exchanging l =>
    if s.busy l then .ok { s with phase := .spinning l 0 } else .ok (s.acquire l)

def Locks.tryLock (action : MutexAction) (s : Locks) (l : LockAddr) : Except Panic Locks :=
  let hart := action.beforeLock s.hart
  if s.busy l then do .ok { s with hart := ← action.afterLock hart }
  else .ok ({ s with hart := hart }.acquire l)

def Locks.dropGuard (action : MutexAction) (s : Locks) (l : LockAddr) : Except Panic Locks := do
  let hart ← action.afterLock s.hart
  .ok { s with hart := hart, busy := update s.busy l false, guards := s.guards.erase l }

def LockOp.step (action : MutexAction) (s : Locks) : LockOp → Except Panic Locks
  | .lock l => .ok { s with hart := action.beforeLock s.hart, phase := .spinning l 0 }
  | .spin => s.spin
  | .tryLock l => s.tryLock action l
  | .dropGuard l => s.dropGuard action l
  | .others l flag => .ok { s with busy := update s.busy l flag }

def LockOp.exec (action : MutexAction) (op : LockOp) (_ : Unit) : EStateM Panic Locks Unit :=
  fun s => match op.step action s with
    | .ok s' => .ok () s'
    | .error e => .error e s

/-- The hart runs one call at a time and drops guards that it has; the other harts leave the locks
alone that this one holds. -/
def LockOp.Enabled (s : Locks) : LockOp → Prop
  | .lock _ | .tryLock _ => s.phase = .idle
  | .spin => s.phase ≠ .idle
  | .dropGuard l => s.phase = .idle ∧ l ∈ s.guards
  | .others l _ => l ∉ s.guards

instance (op : LockOp) (s : Locks) : Decidable (op.Enabled s) :=
  match op with
  | .lock _ | .tryLock _ => inferInstanceAs (Decidable (s.phase = .idle))
  | .spin => inferInstanceAs (Decidable (s.phase ≠ .idle))
  | .dropGuard l => inferInstanceAs (Decidable (s.phase = .idle ∧ l ∈ s.guards))
  | .others l _ => inferInstanceAs (Decidable (l ∉ s.guards))

end DuckOs.HartModel
