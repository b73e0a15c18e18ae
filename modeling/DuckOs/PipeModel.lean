import DuckOs.AddressModel

/-! Pipes: the ring of bytes, and the calls that read and write it. A call takes the lock
once in each round of its loop, so a round is one step. -/
namespace DuckOs.PipeModel
open AddressModel

def maxPipeBuffer : ℕ := 1024 * 8

instance : NeZero maxPipeBuffer := ⟨by decide⟩

inductive RingBufferStatus where
  | Full
  | Empty
  | HasSome
  deriving DecidableEq

/-- The indices stay below the length of the array: both are only set modulo that length. An end
is `none` before `make_pipes` sets it; the flag says whether it still has a strong reference. -/
structure PipeRingBuffer where
  buf : Fin maxPipeBuffer → UInt8
  readEnd : Option Bool
  writeEnd : Option Bool
  status : RingBufferStatus
  head : Fin maxPipeBuffer
  tail : Fin maxPipeBuffer

namespace PipeRingBuffer

def new : PipeRingBuffer := ⟨fun _ => 0, none, none, .Empty, 0, 0⟩

def readByte (self : PipeRingBuffer) : Option UInt8 × PipeRingBuffer :=
  if self.status = .Empty then (none, self)
  else
    let head := self.head + 1
    (some (self.buf self.head),
      { self with status := if head = self.tail then .Empty else .HasSome, head := head })

def writeByte (self : PipeRingBuffer) (byte : UInt8) : Bool × PipeRingBuffer :=
  if self.status = .Full then (false, self)
  else
    let tail := self.tail + 1
    (true, { self with
      status := if tail = self.head then .Full else .HasSome
      buf := Function.update self.buf self.tail byte
      tail := tail })

def availableRead (self : PipeRingBuffer) : ℕ :=
  if self.status = .Empty then 0
  else if self.head.val < self.tail.val then self.tail.val - self.head.val
  else self.tail.val + maxPipeBuffer - self.head.val

def availableWrite (self : PipeRingBuffer) : ℕ :=
  if self.status = .Full then 0 else maxPipeBuffer - self.availableRead

def isWriteEndClosed (self : PipeRingBuffer) : Except Panic Bool :=
  match self.writeEnd with
  | some alive => .ok (!alive)
  | none => .error .unwrapNone

def isReadEndClosed (self : PipeRingBuffer) : Except Panic Bool :=
  match self.readEnd with
  | some alive => .ok (!alive)
  | none => .error .unwrapNone

end PipeRingBuffer

/-- The buffer that the two ends of a new pipe share. -/
def makePipes : PipeRingBuffer :=
  { PipeRingBuffer.new with readEnd := some true, writeEnd := some true }

/-- How a round of the loop ends. -/
inductive Round where
  | returned
  | again
  deriving DecidableEq

/-- The inner loop of `read`: `count` bytes at most, into a buffer of `len` bytes of which those in
`got` are filled. -/
def readBytes (len : ℕ) : ℕ → PipeRingBuffer → List UInt8 →
    Except Panic (PipeRingBuffer × List UInt8 × Round)
  | 0, rb, got => .ok (rb, got, .again)
  | count + 1, rb, got =>
    match rb.readByte with
    | (none, _) => .error .unwrapNone
    | (some c, rb') =>
      if got.length + 1 = len then .ok (rb', got ++ [c], .returned)
      else readBytes len count rb' (got ++ [c])

/-- One round of `read`. A call that finds nothing gives up the lock and the processor. -/
def readRound (rb : PipeRingBuffer) (len : ℕ) (got : List UInt8) :
    Except Panic (PipeRingBuffer × List UInt8 × Round) :=
  if rb.availableRead = 0 then do
    if ← rb.isWriteEndClosed then .ok (rb, got, .returned) else .ok (rb, got, .again)
  else readBytes len rb.availableRead rb got

/-- The inner loop of `write`; `accepted` collects the bytes that the ring took. The result of
`write_byte` is ignored. -/
def writeBytes (buf : List UInt8) : ℕ → PipeRingBuffer → ℕ → List UInt8 →
    Except Panic (PipeRingBuffer × ℕ × List UInt8 × Round)
  | 0, rb, written, accepted => .ok (rb, written, accepted, .again)
  | count + 1, rb, written, accepted =>
    match buf[written]? with
    | none => .error .explicit
    | some c =>
      let r := rb.writeByte c
      let accepted := if r.1 then accepted ++ [c] else accepted
      if written + 1 = buf.length then .ok (r.2, written + 1, accepted, .returned)
      else writeBytes buf count r.2 (written + 1) accepted

/-- One round of `write`. -/
def writeRound (rb : PipeRingBuffer) (buf : List UInt8) (written : ℕ) :
    Except Panic (PipeRingBuffer × ℕ × List UInt8 × Round) :=
  if rb.availableWrite = 0 then do
    if ← rb.isReadEndClosed then .ok (rb, written, [], .returned) else .ok (rb, written, [], .again)
  else writeBytes buf rb.availableWrite rb written []

/-- A call on the pipe, with what it has moved so far and whether it has returned. -/
inductive Call where
  | read (len : ℕ) (got : List UInt8) (returned : Bool)
  | write (buf : List UInt8) (written : ℕ) (returned : Bool)

/-- The pipe with the calls on it. The bytes that the ring took and gave are recorded with the
number of their call. -/
structure PipeState where
  buffer : PipeRingBuffer
  calls : List Call
  inserted : List (ℕ × UInt8)
  removed : List (ℕ × UInt8)

def PipeState.made : PipeState := ⟨makePipes, [], [], []⟩

inductive PipeOp where
  | startRead (len : ℕ)
  | startWrite (buf : List UInt8)
  | round (call : ℕ)
  | dropReadEnd
  | dropWriteEnd

def isDone : Round → Bool
  | .returned => true
  | .again => false

/-- A call that has returned takes no more steps. -/
def roundOf (p : PipeState) (i : ℕ) : Except Panic PipeState :=
  match p.calls[i]? with
  | some (.read len got false) => do
    let (rb, got', round) ← readRound p.buffer len got
    .ok { p with
      buffer := rb
      calls := p.calls.set i (.read len got' (isDone round))
      removed := p.removed ++ (got'.drop got.length).map fun c => (i, c) }
  | some (.write buf written false) => do
    let (rb, written', accepted, round) ← writeRound p.buffer buf written
    .ok { p with
      buffer := rb
      calls := p.calls.set i (.write buf written' (isDone round))
      inserted := p.inserted ++ accepted.map fun c => (i, c) }
  | _ => .ok p

def PipeOp.step (p : PipeState) : PipeOp → Except Panic PipeState
  | .startRead len => .ok { p with calls := p.calls ++ [.read len [] false] }
  | .startWrite buf => .ok { p with calls := p.calls ++ [.write buf 0 false] }
  | .round call => roundOf p call
  | .dropReadEnd => .ok { p with buffer := { p.buffer with readEnd := some false } }
  | .dropWriteEnd => .ok { p with buffer := { p.buffer with writeEnd := some false } }

def PipeOp.exec (op : PipeOp) (_ : Unit) : EStateM Panic PipeState Unit := fun p =>
  match op.step p with
  | .ok p' => .ok () p'
  | .error e => .error e p

/-- The buffers that the calls are given are not empty. -/
def PipeOp.Given : PipeOp → Prop
  | .startRead len => 0 < len
  | .startWrite buf => buf ≠ []
  | _ => True

end DuckOs.PipeModel
