import DuckOs.BlockDevices
import DuckOs.ClockSweeps

/-! The block cache of the FAT32 file system: a queue of cached sectors with a clock, and the
`Arc`s that the callers hold. -/
namespace DuckOs.BlockCacheModel
open AddressModel ChunkedArrays BlockDevices ClockSweeps Function

def sectorCacheSize : ℕ := 64

inductive Stop where
  | panic (reason : Panic)
  /-- an index past the end of the queue -/
  | index
  /-- the clock goes round for ever -/
  | endless
  deriving DecidableEq

structure BlockCache where
  cache : Sector
  blockId : ℕ
  modified : Bool

/-- An `Arc` is the number of its object. -/
structure Slot where
  blockId : ℕ
  object : ℕ
  flag : ℕ

structure Caches where
  device : BlockDevice
  objects : ℕ → BlockCache
  /-- the number of the next object -/
  fresh : ℕ
  queue : List Slot
  clock : ℕ
  /-- the `Arc`s outside the queue -/
  handles : List ℕ
  /-- what was last written to each block; no code reads it -/
  latest : ℕ → Sector

namespace Caches

def strongCount (s : Caches) (object : ℕ) : ℕ :=
  (s.queue.map Slot.object).count object + s.handles.count object

def sync (s : Caches) (object : ℕ) : Except Stop Caches :=
  let block := s.objects object
  if block.modified then do
    let device ← (s.device.writeBlock block.blockId block.cache).mapError .panic
    pure { s with
      device := device
      objects := update s.objects object { block with modified := false } }
  else pure s

/-- One reference is gone; the last one takes the object with it. -/
def dropArc (s : Caches) (object : ℕ) : Except Stop Caches :=
  if s.strongCount object = 0 then s.sync object else pure s

def clockHand (s : Caches) : Clock Slot where
  pinned slot := s.strongCount slot.object != 1
  marked slot := slot.flag == 1
  unmark slot := { slot with flag := 0 }
  pinned_unmark _ := rfl
  marked_unmark _ := rfl

/-- The slot that the clock finds is drained, and the new one is written at the same index, over
the slot that has moved up. Two rounds of the clock are enough to find a slot. -/
def replaceSlot (s : Caches) (slot : Slot) : Except Stop Caches :=
  match s.clockHand.sweep sectorCacheSize (2 * sectorCacheSize) s.queue s.clock with
  | none => .error .endless
  | some (queue, clock) => do
    let drained := queue[clock]?.toList.map Slot.object
    let s ← drained.foldlM dropArc { s with queue := queue.eraseIdx clock, clock := clock }
    match s.queue[clock]? with
    | none => .error .index
    | some old => dropArc { s with
        queue := s.queue.set clock slot
        clock := (clock + 1) % sectorCacheSize } old.object

/-- `BlockCache::new` makes the object before the queue is looked at. -/
def newBlockCache (s : Caches) (blockId : ℕ) : Except Stop Caches := do
  let sector ← (s.device.readBlock blockId).mapError .panic
  pure { s with
    objects := update s.objects s.fresh ⟨sector, blockId, false⟩
    fresh := s.fresh + 1 }

def getBlockCache (s : Caches) (blockId : ℕ) : Except Stop (ℕ × Caches) :=
  match s.queue.find? fun slot => slot.blockId = blockId with
  | some slot => pure (slot.object, s)
  | none => do
    let object := s.fresh
    let s ← s.newBlockCache blockId
    let s ← if s.queue.length = sectorCacheSize then s.replaceSlot ⟨blockId, object, 1⟩
      else pure { s with queue := s.queue ++ [⟨blockId, object, 1⟩] }
    pure (object, s)

/-- `get_ref` and `get_mut` check the range and then index the first byte. -/
def inBlock (offset len : ℕ) : Prop := offset + len ≤ sectorSize ∧ offset < sectorSize

instance (offset len : ℕ) : Decidable (inBlock offset len) := instDecidableAnd

def readBytes (s : Caches) (object offset len : ℕ) : Except Stop (List UInt8) :=
  if inBlock offset len then pure (((s.objects object).cache.val.drop offset).take len)
  else .error (.panic .assertion)

def overwriteSector (sector : Sector) (offset : ℕ) (bytes : List UInt8)
    (h : inBlock offset bytes.length) : Sector :=
  ⟨overwrite sector.val offset bytes, by
    rw [length_overwrite (by rw [sector.property]; exact h.1), sector.property]⟩

def writeBytes (s : Caches) (object offset : ℕ) (bytes : List UInt8) : Except Stop Caches :=
  let block := s.objects object
  if h : inBlock offset bytes.length then
    pure { s with
      objects := update s.objects object
        { block with cache := overwriteSector block.cache offset bytes h, modified := true }
      latest := update s.latest block.blockId
        (overwriteSector (s.latest block.blockId) offset bytes h) }
  else .error (.panic .assertion)

def blockCacheSyncAll (s : Caches) : Except Stop Caches :=
  s.queue.foldlM (fun s slot => s.sync slot.object) s

/-- What the device holds is what was last written. -/
def booted (device : BlockDevice) (objects : ℕ → BlockCache) : Caches where
  device := device
  objects := objects
  fresh := 0
  queue := []
  clock := 0
  handles := []
  latest id := (device.sectors[id]?).getD ⟨List.replicate sectorSize 0, length_zeros⟩

end Caches

/-- The caller names a handle by its place among those it holds. -/
inductive CacheOp where
  | get (blockId : ℕ)
  | read (handle offset len : ℕ)
  | write (handle offset : ℕ) (bytes : List UInt8)
  | release (handle : ℕ)
  | syncAll

def CacheOp.step (s : Caches) : CacheOp → Except Stop Caches
  | .get blockId => do
    let (object, s) ← s.getBlockCache blockId
    pure { s with handles := s.handles ++ [object] }
  | .read handle offset len =>
    match s.handles[handle]? with
    | none => pure s
    | some object => do
      let _ ← s.readBytes object offset len
      pure s
  | .write handle offset bytes =>
    match s.handles[handle]? with
    | none => pure s
    | some object => s.writeBytes object offset bytes
  | .release handle =>
    match s.handles[handle]? with
    | none => pure s
    | some object => { s with handles := s.handles.eraseIdx handle }.dropArc object
  | .syncAll => s.blockCacheSyncAll

end DuckOs.BlockCacheModel
