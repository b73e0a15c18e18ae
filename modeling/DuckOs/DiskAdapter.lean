import DuckOs.BlockDevices

namespace DuckOs.DiskAdapter
open AddressModel ChunkedArrays BlockDevices

/-- The offset stays inside a sector: both transfers and `set_position` keep it there. -/
structure Disk where
  blockId : ℕ
  offset : ℕ
  dev : BlockDevice
  offset_lt : offset < sectorSize

namespace Disk

def new (dev : BlockDevice) : Disk := ⟨0, 0, dev, by decide⟩

def size (d : Disk) : ℕ := d.dev.size

def position (d : Disk) : ℕ := (d.blockId * sectorSize + d.offset) % wordSize

def setPosition (d : Disk) (pos : ℕ) : Disk :=
  { d with
    blockId := pos / sectorSize
    offset := pos % sectorSize
    offset_lt := Nat.mod_lt pos (by decide) }

def advance (d : Disk) (count : ℕ) (h : d.offset + count ≤ sectorSize) : Disk :=
  if hfull : d.offset + count < sectorSize then
    { d with offset := d.offset + count, offset_lt := hfull }
  else
    { d with
      blockId := d.blockId + 1
      offset := d.offset + count - sectorSize
      offset_lt := by
        have : 0 < sectorSize := by decide
        omega }

def countOf (d : Disk) (len : ℕ) : ℕ := min len (sectorSize - d.offset)

theorem countOf_le (d : Disk) (len : ℕ) : d.offset + d.countOf len ≤ sectorSize := by
  have := d.offset_lt
  unfold countOf
  omega

def readOne (d : Disk) (len : ℕ) : Except Panic (Disk × List UInt8) :=
  if d.offset = 0 ∧ sectorSize ≤ len then do
    let sector ← d.dev.readBlock d.blockId
    .ok ({ d with blockId := d.blockId + 1 }, sector.val)
  else do
    let count := d.countOf len
    let data ← d.dev.readBlock d.blockId
    .ok (d.advance count (d.countOf_le len), (data.val.drop d.offset).take count)

def writeOne (d : Disk) (buf : List UInt8) : Except Panic (Disk × ℕ) :=
  if h : d.offset = 0 ∧ sectorSize ≤ buf.length then do
    let dev ← d.dev.writeBlock d.blockId ⟨buf.take sectorSize, by simp [h.2]⟩
    .ok ({ d with blockId := d.blockId + 1, dev := dev }, sectorSize)
  else do
    let count := d.countOf buf.length
    let data ← d.dev.readBlock d.blockId
    have hlen : (overwrite data.val d.offset (buf.take count)).length = sectorSize := by
      have hle := d.countOf_le buf.length
      have hcount : (buf.take count).length = count := by simp [count, countOf]
      rw [length_overwrite (by rw [hcount, data.property]; exact hle), data.property]
    let dev ← d.dev.writeBlock d.blockId ⟨overwrite data.val d.offset (buf.take count), hlen⟩
    .ok ({ d with dev := dev }.advance count (d.countOf_le buf.length), count)

/-- The loop of `read` fills what is left of the buffer: the length read, and the bytes. -/
def read (d : Disk) (len : ℕ) : Except Panic (Disk × ℕ × List UInt8) :=
  if len = 0 then .ok (d, 0, [])
  else
    match d.readOne len with
    | .error e => .error e
    | .ok (d', bytes) =>
      if bytes.length = 0 then .ok (d', 0, [])
      else
        match read d' (len - bytes.length) with
        | .error e => .error e
        | .ok (d'', readLen, rest) => .ok (d'', bytes.length + readLen, bytes ++ rest)
termination_by len

def write (d : Disk) (buf : List UInt8) : Except Panic (Disk × ℕ) :=
  if buf = [] then .ok (d, 0)
  else
    match d.writeOne buf with
    | .error e => .error e
    | .ok (d', n) =>
      if n = 0 then .ok (d', 0)
      else
        match write d' (buf.drop n) with
        | .error e => .error e
        | .ok (d'', writeLen) => .ok (d'', n + writeLen)
termination_by buf.length
decreasing_by
  have := List.length_pos_iff.mpr ‹buf ≠ []›
  rw [List.length_drop]
  omega

end Disk

def seekSet : ℕ := 0

def seekCur : ℕ := 1

def seekEnd : ℕ := 2

def asU64 (x : ℤ) : ℕ := (x % wordSize).toNat

def asI64 (x : ℕ) : ℤ := (x : ℤ).bmod wordSize

def checkedAddSigned (x : ℕ) (off : ℤ) : Option ℕ :=
  if 0 ≤ (x : ℤ) + off ∧ (x : ℤ) + off < wordSize then some ((x : ℤ) + off).toNat else none

/-- A target that cannot be computed is the error `-1`; one behind the end is only logged. -/
def Disk.seek (d : Disk) (off : ℤ) (whence : ℕ) : Except ℤ (Disk × ℤ) :=
  let newPos :=
    if whence = seekSet then some off
    else if whence = seekCur then (checkedAddSigned d.position off).map asI64
    else if whence = seekEnd then (checkedAddSigned d.size off).map asI64
    else some off
  match newPos with
  | none => .error (-1)
  | some pos => .ok (d.setPosition (asU64 pos), pos)

section OneSector

variable {d : Disk} {len : ℕ} {buf : List UInt8}

def cursor (d : Disk) : ℕ := d.blockId * sectorSize + d.offset

theorem position_eq (h : cursor d ≤ d.size) : d.position = cursor d :=
  Nat.mod_eq_of_lt (Nat.lt_of_le_of_lt h d.dev.fits)

@[simp] theorem cursor_setPosition (d : Disk) (pos : ℕ) : cursor (d.setPosition pos) = pos := by
  exact Nat.div_add_mod' pos sectorSize

@[simp] theorem dev_advance (d : Disk) (count : ℕ) (h : d.offset + count ≤ sectorSize) :
    (d.advance count h).dev = d.dev := by
  unfold Disk.advance
  split <;> rfl

@[simp] theorem cursor_advance (d : Disk) (count : ℕ) (h : d.offset + count ≤ sectorSize) :
    cursor (d.advance count h) = cursor d + count := by
  unfold Disk.advance
  split
  · unfold cursor
    dsimp only
    omega
  · unfold cursor
    dsimp only
    rw [Nat.succ_mul]
    omega

theorem countOf_pos (d : Disk) (h : 0 < len) : 0 < d.countOf len := by
  have := d.offset_lt
  unfold Disk.countOf
  omega

theorem countOf_le_len (d : Disk) (len : ℕ) : d.countOf len ≤ len := Nat.min_le_left _ _

theorem blockId_lt (h : cursor d + len ≤ d.size) (hpos : 0 < len) :
    d.blockId < d.dev.sectors.length := by
  unfold cursor Disk.size BlockDevice.size at h
  by_contra hge
  have := Nat.mul_le_mul_right sectorSize (Nat.le_of_not_lt hge)
  omega

theorem countOf_whole (h : d.offset = 0 ∧ sectorSize ≤ len) : d.countOf len = sectorSize := by
  unfold Disk.countOf
  omega

theorem readOne_ok (d : Disk) (len : ℕ) (h : d.blockId < d.dev.sectors.length) :
    ∃ d', d.readOne len = .ok (d', (d.dev.bytes.drop (cursor d)).take (d.countOf len)) ∧
      d'.dev = d.dev ∧ cursor d' = cursor d + d.countOf len := by
  obtain ⟨sector,hsector,hread⟩ := BlockDevice.readBlock_ok h
  have hslice : (d.dev.bytes.drop (cursor d)).take (d.countOf len) =
      (sector.val.drop d.offset).take (d.countOf len) :=
    slice_flat_inside hsector (d.countOf_le len)
  unfold Disk.readOne
  rw [hread,hslice]
  by_cases hwhole : d.offset = 0 ∧ sectorSize ≤ len
  · have hall : (sector.val.drop d.offset).take sectorSize = sector.val := by
      rw [hwhole.1,List.drop_zero,List.take_of_length_le (Nat.le_of_eq sector.property)]
    rw [if_pos hwhole,countOf_whole hwhole,hall]
    refine ⟨_,rfl,rfl,?_⟩
    unfold cursor
    dsimp only
    rw [Nat.succ_mul]
    omega
  · rw [if_neg hwhole]
    exact ⟨_,rfl,dev_advance _ _ _,cursor_advance _ _ _⟩

theorem writeOne_ok (d : Disk) (buf : List UInt8) (h : d.blockId < d.dev.sectors.length) :
    ∃ d', d.writeOne buf = .ok (d', d.countOf buf.length) ∧
      d'.dev.bytes = overwrite d.dev.bytes (cursor d) (buf.take (d.countOf buf.length)) ∧
      d'.size = d.size ∧ cursor d' = cursor d + d.countOf buf.length := by
  have hcount : (buf.take (d.countOf buf.length)).length = d.countOf buf.length := by
    simp [Disk.countOf]
  unfold Disk.writeOne
  by_cases hwhole : d.offset = 0 ∧ sectorSize ≤ buf.length
  · have hcur : cursor d = d.blockId * sectorSize := by
      unfold cursor
      rw [hwhole.1,Nat.add_zero]
    rw [dif_pos hwhole,countOf_whole hwhole,hcur]
    obtain ⟨dev',hwrite,hset⟩ :=
      BlockDevice.writeBlock_ok h ⟨buf.take sectorSize,by simp [hwhole.2]⟩
    rw [hwrite]
    refine ⟨_,rfl,?_,?_,?_⟩
    · change flat dev'.sectors = _
      rw [hset,flat_set h]
      rfl
    · change dev'.sectors.length * sectorSize = _
      rw [hset,List.length_set]
      rfl
    · unfold cursor
      dsimp only
      rw [hwhole.1,Nat.succ_mul,Nat.add_zero]
  · rw [dif_neg hwhole]
    obtain ⟨sector,hsector,hread⟩ := BlockDevice.readBlock_ok h
    obtain ⟨dev',hwrite,hset⟩ := BlockDevice.writeBlock_ok h
      ⟨overwrite sector.val d.offset (buf.take (d.countOf buf.length)),by
        rw [length_overwrite (by rw [hcount,sector.property]; exact d.countOf_le _),
          sector.property]⟩
    rw [hread]
    dsimp only [bind,Except.bind]
    rw [hwrite]
    refine ⟨_,rfl,?_,?_,cursor_advance _ _ _⟩
    · rw [dev_advance]
      change flat dev'.sectors = _
      rw [hset]
      exact flat_set_inside hsector (by rw [hcount]; exact d.countOf_le _) _ rfl
    · unfold Disk.size
      rw [dev_advance]
      change dev'.sectors.length * sectorSize = _
      rw [hset,List.length_set]
      rfl

end OneSector

theorem read_ok (len : ℕ) : ∀ d : Disk, cursor d + len ≤ d.size →
    ∃ d', d.read len = .ok (d', len, (d.dev.bytes.drop (cursor d)).take len) ∧
      d'.dev = d.dev ∧ cursor d' = cursor d + len := by
  induction len using Nat.strong_induction_on with
  | _ len ih =>
    intro d h
    rw [Disk.read]
    by_cases hzero : len = 0
    · rw [if_pos hzero,hzero]
      exact ⟨d,by simp,rfl,(Nat.add_zero _).symm⟩
    · -- one sector, and the rest by induction
      have hpos := Nat.pos_of_ne_zero hzero
      have hcount := countOf_pos d hpos
      have hle := countOf_le_len d len
      obtain ⟨d₁,hone,hdev,hcur⟩ := readOne_ok d len (blockId_lt h hpos)
      have hlen : ((d.dev.bytes.drop (cursor d)).take (d.countOf len)).length = d.countOf len := by
        have hsize : d.dev.bytes.length = d.size := BlockDevice.length_bytes _
        rw [List.length_take,List.length_drop]
        omega
      have hrest : cursor d₁ + (len - d.countOf len) ≤ d₁.size := by
        unfold Disk.size at h ⊢
        rw [hdev]
        omega
      obtain ⟨d₂,hread,hdev₂,hcur₂⟩ := ih (len - d.countOf len) (by omega) d₁ hrest
      rw [if_neg hzero,hone]
      dsimp only
      rw [hlen,if_neg (by omega),hread]
      refine ⟨d₂,?_,hdev₂.trans hdev,by omega⟩
      dsimp only
      rw [hdev,hcur,← List.drop_drop]
      congr 2
      refine Prod.ext (by dsimp only; omega) ?_
      dsimp only
      rw [← List.take_add]
      congr 1
      omega

theorem write_ok (buf : List UInt8) : ∀ d : Disk, cursor d + buf.length ≤ d.size →
    ∃ d', d.write buf = .ok (d', buf.length) ∧
      d'.dev.bytes = overwrite d.dev.bytes (cursor d) buf ∧ d'.size = d.size ∧
      cursor d' = cursor d + buf.length := by
  induction hn : buf.length using Nat.strong_induction_on generalizing buf with
  | _ n ih =>
    intro d h
    rw [Disk.write]
    by_cases hnil : buf = []
    · have hzero : n = 0 := by rw [← hn,hnil]; rfl
      rw [if_pos hnil,hnil,hzero]
      exact ⟨d,rfl,by simp,rfl,(Nat.add_zero _).symm⟩
    · have hpos : 0 < buf.length := List.length_pos_iff.mpr hnil
      have hcount := countOf_pos d hpos
      have hle := countOf_le_len d buf.length
      rw [← hn] at h
      obtain ⟨d₁,hone,hbytes,hsize,hcur⟩ := writeOne_ok d buf (blockId_lt h hpos)
      have hdrop : (buf.drop (d.countOf buf.length)).length = n - d.countOf buf.length := by
        rw [List.length_drop,hn]
      obtain ⟨d₂,hwrite,hbytes₂,hsize₂,hcur₂⟩ :=
        ih (n - d.countOf buf.length) (by omega) _ hdrop d₁ (by omega)
      rw [if_neg hnil,hone]
      dsimp only
      rw [if_neg (by omega),hwrite]
      refine ⟨d₂,?_,?_,hsize₂.trans hsize,by omega⟩
      · dsimp only
        congr 2
        omega
      · have hcat := overwrite_append (l := d.dev.bytes) (p := cursor d)
          (b := buf.take (d.countOf buf.length)) (c := buf.drop (d.countOf buf.length))
          (by rw [List.take_append_drop,BlockDevice.length_bytes]; exact h)
        rw [List.take_append_drop,List.length_take,min_eq_left hle] at hcat
        rw [hbytes₂,hbytes,hcur]
        exact hcat

theorem seek_ok (d : Disk) {p : ℕ} (h : p < wordSize) :
    d.seek (asI64 p) seekSet = .ok (d.setPosition p, asI64 p) := by
  have hback : asU64 (asI64 p) = p := by
    unfold asU64 asI64
    rw [Int.bmod_emod,Int.emod_eq_of_lt (by omega) (by exact_mod_cast h),Int.toNat_natCast]
  simp [Disk.seek,hback]

/-- The disk is an array of bytes with a 64-bit cursor, for every transfer that stays on the
device. What was written is read back after seeking to where it was written. -/
theorem disk_transfers (d : Disk) (h64 : d.blockId * sectorSize + d.offset < wordSize) :
    (∀ n, d.position + n ≤ d.size → ∃ d₁,
      d.read n = .ok (d₁, n, (d.dev.bytes.drop d.position).take n) ∧ d₁.dev = d.dev ∧
        d₁.position = d.position + n) ∧
    (∀ buf : List UInt8, d.position + buf.length ≤ d.size → ∃ d₁,
      d.write buf = .ok (d₁, buf.length) ∧ d₁.position = d.position + buf.length ∧
      d₁.dev.bytes.length = d.dev.bytes.length ∧
      (∀ i, d₁.dev.bytes[i]? =
        if d.position ≤ i ∧ i < d.position + buf.length then buf[i - d.position]?
        else d.dev.bytes[i]?) ∧
      ∃ d₂ d₃, d₁.seek (asI64 d.position) seekSet = .ok (d₂, asI64 d.position) ∧
        d₂.read buf.length = .ok (d₃, buf.length, buf)) := by
  rw [show d.position = cursor d from Nat.mod_eq_of_lt h64]
  constructor
  · intro n hn
    obtain ⟨d₁,hread,hdev,hcur⟩ := read_ok n d hn
    have hsize : d₁.size = d.size := by
      unfold Disk.size
      rw [hdev]
    exact ⟨d₁,hread,hdev,(position_eq (by omega)).trans hcur⟩
  · intro buf hbuf
    obtain ⟨d₁,hwrite,hbytes,hsize,hcur⟩ := write_ok buf d hbuf
    have hlen : cursor d + buf.length ≤ d.dev.bytes.length := by
      rw [BlockDevice.length_bytes]
      exact hbuf
    obtain ⟨d₃,hread,_,_⟩ := read_ok buf.length (d₁.setPosition (cursor d)) (by
      rw [cursor_setPosition]
      change cursor d + buf.length ≤ d₁.size
      omega)
    refine ⟨d₁,hwrite,(position_eq (by omega)).trans hcur,?_,?_,d₁.setPosition (cursor d),d₃,
      seek_ok d₁ h64,?_⟩
    · rw [hbytes,length_overwrite hlen]
    · intro i
      rw [hbytes,getElem?_overwrite hlen]
    · rw [hread,cursor_setPosition]
      change Except.ok (d₃, buf.length, (d₁.dev.bytes.drop (cursor d)).take buf.length) = _
      rw [hbytes,slice_overwrite hlen]

/-- A device of two sectors of zeros. -/
def twoSectors : BlockDevice :=
  ⟨List.replicate 2 ⟨List.replicate sectorSize 0, length_zeros⟩, by decide⟩

/-- Three bytes written across the border of the two sectors. -/
theorem border_transfers :
    ∃ d₁, (((Disk.new twoSectors).setPosition 511).write [1, 2, 3] = .ok (d₁, 3)) ∧
      d₁.position = 514 := by
  obtain ⟨d₁,hwrite,hpos,_⟩ := (disk_transfers ((Disk.new twoSectors).setPosition 511)
    (by decide)).2 [1,2,3] (by decide)
  exact ⟨d₁,hwrite,hpos⟩

end DuckOs.DiskAdapter
