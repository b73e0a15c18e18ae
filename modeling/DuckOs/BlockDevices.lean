import DuckOs.AddressModel
import DuckOs.ChunkedArrays

namespace DuckOs.BlockDevices
open AddressModel ChunkedArrays

def sectorSize : ℕ := 512

abbrev Sector := Chunk UInt8 sectorSize

theorem length_zeros : (List.replicate sectorSize (0 : UInt8)).length = sectorSize :=
  List.length_replicate

/-- The size in bytes is a `u64`. -/
structure BlockDevice where
  sectors : List Sector
  fits : sectors.length * sectorSize < wordSize

namespace BlockDevice

def readBlock (dev : BlockDevice) (blockId : ℕ) : Except Panic Sector :=
  match dev.sectors[blockId]? with
  | some sector => .ok sector
  | none => .error .explicit

def writeBlock (dev : BlockDevice) (blockId : ℕ) (sector : Sector) : Except Panic BlockDevice :=
  if blockId < dev.sectors.length then
    .ok ⟨dev.sectors.set blockId sector, by rw [List.length_set]; exact dev.fits⟩
  else .error .explicit

def size (dev : BlockDevice) : ℕ := dev.sectors.length * sectorSize

/-- The device as one array. -/
def bytes (dev : BlockDevice) : List UInt8 := flat dev.sectors

@[simp] theorem length_bytes (dev : BlockDevice) : dev.bytes.length = dev.size := length_flat _

variable {dev dev' : BlockDevice} {blockId : ℕ} {sector : Sector}

theorem readBlock_ok (h : blockId < dev.sectors.length) :
    ∃ sector, dev.sectors[blockId]? = some sector ∧ dev.readBlock blockId = .ok sector := by
  refine ⟨dev.sectors[blockId],List.getElem?_eq_getElem h,?_⟩
  unfold readBlock
  rw [List.getElem?_eq_getElem h]

theorem writeBlock_ok (h : blockId < dev.sectors.length) (sector : Sector) :
    ∃ dev', dev.writeBlock blockId sector = .ok dev' ∧
      dev'.sectors = dev.sectors.set blockId sector := by
  unfold writeBlock
  rw [if_pos h]
  exact ⟨_,rfl,rfl⟩

end BlockDevice

end DuckOs.BlockDevices
