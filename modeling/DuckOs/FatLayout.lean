import DuckOs.BlockDevices
import DuckOs.LittleEndianWords

/-! Where a FAT32 volume keeps its parts: the boot sector, the entries of the table and the sectors
of the clusters. The block cache is taken to show the bytes of the device. -/
namespace DuckOs.FatLayout
open AddressModel ChunkedArrays BlockDevices LittleEndianWords Function

def field (data : List UInt8) (offset size : ℕ) : ℕ :=
  leWord size fun k => data.getD (offset + k) 0

structure BootSector where
  jmpBoot : List UInt8
  bytsPerSec : UInt16
  secPerClus : UInt8
  rsvdSecCnt : UInt16
  numFATs : UInt8
  rootEntCnt : UInt16
  totSec16 : UInt16
  fatSz16 : UInt16
  totSec32 : UInt32
  fatSz32 : UInt32
  fsVer : UInt16
  fsInfo : UInt16
  bkBootSec : UInt16
  reserved : List UInt8
  reserved1 : UInt8

/-- The offsets are those of `init_map`. -/
def loadBpb (data : Sector) : BootSector where
  jmpBoot := data.val.take 3
  bytsPerSec := .ofNat (field data.val 11 2)
  secPerClus := .ofNat (field data.val 13 1)
  rsvdSecCnt := .ofNat (field data.val 14 2)
  numFATs := .ofNat (field data.val 16 1)
  rootEntCnt := .ofNat (field data.val 17 2)
  totSec16 := .ofNat (field data.val 19 2)
  fatSz16 := .ofNat (field data.val 22 2)
  totSec32 := .ofNat (field data.val 32 4)
  fatSz32 := .ofNat (field data.val 36 4)
  fsVer := .ofNat (field data.val 42 2)
  fsInfo := .ofNat (field data.val 48 2)
  bkBootSec := .ofNat (field data.val 50 2)
  reserved := (data.val.drop 52).take 12
  reserved1 := .ofNat (field data.val 65 1)

def countOnes (n : UInt8) : ℕ := (List.range 8).countP fun k => n.toNat.testBit k

def BootSector.isValid (b : BootSector) : Bool :=
  !(b.jmpBoot.getD 0 0 != 0xEB && b.jmpBoot.getD 0 0 != 0xE9) &&
  !(b.jmpBoot.getD 0 0 == 0xEB && b.jmpBoot.getD 2 0 != 0x90) &&
  b.bytsPerSec == 512 &&
  countOnes b.secPerClus == 1 &&
  !(b.secPerClus < 1 || b.secPerClus > 128) &&
  !(b.rsvdSecCnt ≤ b.fsInfo) &&
  !(b.rsvdSecCnt ≤ b.bkBootSec) &&
  b.numFATs != 0 &&
  b.rootEntCnt == 0 &&
  b.totSec16 == 0 &&
  b.fatSz16 == 0 &&
  b.totSec32 != 0 &&
  b.fsVer == 0 &&
  b.reserved.all (· == 0) &&
  b.reserved1 == 0

/-- The constants of a mounted volume; it is only made from a valid boot sector. -/
structure FatInfo where
  sector : ℕ
  size : ℕ
  bytePerSec : ℕ
  secPerClus : ℕ
  numFat : ℕ
  bytePerSec_eq : bytePerSec = sectorSize
  secPerClus_pos : 0 < secPerClus
  secPerClus_le : secPerClus ≤ 128

def fatSector (b : BootSector) : ℕ := b.rsvdSecCnt.toNat

theorem BootSector.constants {b : BootSector} (h : b.isValid = true) :
    b.bytsPerSec.toNat = sectorSize ∧ 0 < b.secPerClus.toNat ∧ b.secPerClus.toNat ≤ 128 := by
  simp only [BootSector.isValid,Bool.and_eq_true,beq_iff_eq,Bool.not_eq_true',
    Bool.or_eq_false_iff,decide_eq_false_iff_not] at h
  obtain ⟨⟨⟨⟨⟨⟨⟨⟨⟨⟨⟨⟨⟨-,hbytes⟩,-⟩,hlow,hhigh⟩,-⟩,-⟩,-⟩,-⟩,-⟩,-⟩,-⟩,-⟩,-⟩,-⟩ := h
  refine ⟨by rw [hbytes]; rfl,?_,?_⟩
  · simpa [UInt8.lt_iff_toNat_lt,Nat.pos_iff_ne_zero] using hlow
  · simpa [UInt8.lt_iff_toNat_lt] using hhigh

def FatInfo.init (b : BootSector) (h : b.isValid = true) : FatInfo where
  sector := fatSector b
  size := b.fatSz32.toNat
  bytePerSec := b.bytsPerSec.toNat
  secPerClus := b.secPerClus.toNat
  numFat := b.numFATs.toNat
  bytePerSec_eq := (BootSector.constants h).1
  secPerClus_pos := (BootSector.constants h).2.1
  secPerClus_le := (BootSector.constants h).2.2

def clusterToEntry (info : FatInfo) (cluster : ℕ) : ℕ × ℕ :=
  (info.sector + cluster * 4 / info.bytePerSec, cluster * 4 % info.bytePerSec)

def entryPos (info : FatInfo) (entryId : ℕ) : ℕ × ℕ :=
  (info.sector + entryId * 4 / info.bytePerSec, entryId * 4 % info.bytePerSec)

def clusterToSector (info : FatInfo) (cluster : ℕ) : ℕ :=
  ((cluster + (wordSize - 2)) % wordSize * info.secPerClus + info.sector +
    info.size * info.numFat) % wordSize

def readAt (dev : BlockDevice) (sector offset len : ℕ) : Except Panic (List UInt8) := do
  let data ← dev.readBlock sector
  if offset + len ≤ sectorSize then pure ((data.val.drop offset).take len) else .error .assertion

def writeAt (dev : BlockDevice) (sector offset : ℕ) (bytes : List UInt8) :
    Except Panic BlockDevice := do
  let data ← dev.readBlock sector
  if h : offset + bytes.length ≤ sectorSize then
    dev.writeBlock sector ⟨overwrite data.val offset bytes, by
      rw [length_overwrite (by rw [data.property]; exact h), data.property]⟩
  else .error .assertion

def readEntry (dev : BlockDevice) (info : FatInfo) (id : ℕ) : Except Panic ℕ := do
  let bytes ← readAt dev (entryPos info id).1 (entryPos info id).2 4
  pure (field bytes 0 4)

def writeEntry (dev : BlockDevice) (info : FatInfo) (id value : ℕ) : Except Panic BlockDevice :=
  writeAt dev (entryPos info id).1 (entryPos info id).2 (leBytes 4 value)

section Entries

variable {dev : BlockDevice} {info : FatInfo} {id : ℕ}

def entryStart (info : FatInfo) (id : ℕ) : ℕ := info.sector * sectorSize + id * 4

/-- The table as a map of numbers; it ends with the device. -/
def entryAt (dev : BlockDevice) (info : FatInfo) (id : ℕ) : Option ℕ :=
  if entryStart info id < dev.size then some (field dev.bytes (entryStart info id) 4) else none

theorem entryPos_eq (info : FatInfo) (id : ℕ) :
    (entryPos info id).1 * sectorSize + (entryPos info id).2 = entryStart info id ∧
      (entryPos info id).2 + 4 ≤ sectorSize := by
  unfold entryPos entryStart
  rw [info.bytePerSec_eq]
  unfold sectorSize
  omega

theorem entryPos_lt_iff :
    (entryPos info id).1 < dev.sectors.length ↔ entryStart info id < dev.size := by
  obtain ⟨hpos,hin⟩ := entryPos_eq info id
  unfold BlockDevice.size
  unfold sectorSize at *
  omega

theorem readAt_ok {n offset len : ℕ} {sector : Sector} (h : dev.sectors[n]? = some sector)
    (hin : offset + len ≤ sectorSize) :
    readAt dev n offset len = .ok ((sector.val.drop offset).take len) := by
  unfold readAt BlockDevice.readBlock
  rw [h]
  exact if_pos hin

theorem readAt_outside {n : ℕ} (h : dev.sectors[n]? = none) (offset len : ℕ) :
    readAt dev n offset len = .error .explicit := by
  unfold readAt BlockDevice.readBlock
  rw [h]
  rfl

theorem field_slice (data : List UInt8) (offset size : ℕ) :
    field ((data.drop offset).take size) 0 size = field data offset size := by
  apply leWord_congr
  intro k hk
  rw [Nat.zero_add,List.getD_eq_getElem?_getD,List.getD_eq_getElem?_getD,
    List.getElem?_take_of_lt hk,List.getElem?_drop]

theorem readEntry_eq (dev : BlockDevice) (info : FatInfo) (id : ℕ) :
    readEntry dev info id = (entryAt dev info id).elim (.error .explicit) .ok := by
  obtain ⟨hpos,hin⟩ := entryPos_eq info id
  unfold readEntry entryAt
  by_cases hlt : (entryPos info id).1 < dev.sectors.length
  · obtain ⟨sector,hsector,-⟩ := BlockDevice.readBlock_ok hlt
    rw [if_pos (entryPos_lt_iff.mp hlt),readAt_ok hsector hin,← slice_flat_inside hsector hin,
      hpos]
    exact congrArg Except.ok (field_slice dev.bytes (entryStart info id) 4)
  · rw [if_neg (fun h => hlt (entryPos_lt_iff.mpr h)),
      readAt_outside (List.getElem?_eq_none (Nat.le_of_not_lt hlt))]
    rfl

theorem field_overwrite_same {data : List UInt8} {p value : ℕ} (hin : p + 4 ≤ data.length)
    (hv : value < 2 ^ 32) : field (overwrite data p (leBytes 4 value)) p 4 = value := by
  have hlen : (leBytes 4 value).length = 4 := by simp [leBytes]
  have hsame : field (overwrite data p (leBytes 4 value)) p 4 = leWord 4 (leByte value) := by
    apply leWord_congr
    intro k hk
    rw [List.getD_eq_getElem?_getD,getElem?_overwrite (by omega),if_pos (by omega),
      Nat.add_sub_cancel_left]
    simp [leBytes,hk]
  rw [hsame,leWord_leByte,Nat.mod_eq_of_lt (hv.trans_le (by decide))]

theorem field_overwrite_other {data bytes : List UInt8} {p q : ℕ}
    (hin : p + bytes.length ≤ data.length) (hq : q + 4 ≤ p ∨ p + bytes.length ≤ q) :
    field (overwrite data p bytes) q 4 = field data q 4 := by
  apply leWord_congr
  intro k hk
  rw [List.getD_eq_getElem?_getD,List.getD_eq_getElem?_getD,getElem?_overwrite hin,
    if_neg (by omega)]

theorem writeEntry_ok {old value : ℕ} (h : entryAt dev info id = some old) (hv : value < 2 ^ 32) :
    ∃ dev', writeEntry dev info id value = .ok dev' ∧
      entryAt dev' info = update (entryAt dev info) id (some value) := by
  have hstart : entryStart info id < dev.size := by
    unfold entryAt at h
    by_contra hnot
    rw [if_neg hnot] at h
    cases h
  obtain ⟨hpos,hin⟩ := entryPos_eq info id
  have hlt := entryPos_lt_iff.mpr hstart
  have hlen : (leBytes 4 value).length = 4 := by simp [leBytes]
  obtain ⟨sector,hsector,hread⟩ := BlockDevice.readBlock_ok hlt
  have hfits : (entryPos info id).2 + (leBytes 4 value).length ≤ sectorSize := by omega
  have hwhole : (overwrite sector.val (entryPos info id).2 (leBytes 4 value)).length =
      sectorSize := by
    rw [length_overwrite (by rw [sector.property]; exact hfits),sector.property]
  obtain ⟨dev',hwrite,hsectors⟩ := BlockDevice.writeBlock_ok hlt
    ⟨overwrite sector.val (entryPos info id).2 (leBytes 4 value),hwhole⟩
  refine ⟨dev',?_,?_⟩
  · unfold writeEntry writeAt
    rw [hread]
    change (if h : _ then _ else _) = _
    rw [dif_pos hfits]
    exact hwrite
  · have hsize : dev'.size = dev.size := by
      unfold BlockDevice.size
      rw [hsectors,List.length_set]
    have hbytes : dev'.bytes = overwrite dev.bytes (entryStart info id) (leBytes 4 value) := by
      unfold BlockDevice.bytes
      rw [hsectors,← hpos]
      exact flat_set_inside hsector hfits _ rfl
    have hroom : entryStart info id + 4 ≤ dev.bytes.length := by
      rw [BlockDevice.length_bytes,← hpos]
      unfold BlockDevice.size
      unfold sectorSize at *
      omega
    funext j
    unfold entryAt
    rw [hsize,hbytes]
    by_cases hj : j = id
    · subst hj
      rw [update_self,if_pos hstart,field_overwrite_same hroom hv]
    · rw [update_of_ne hj,
        field_overwrite_other (by omega) (by unfold entryStart; omega)]

end Entries

section Geometry

def dataSector (b : BootSector) : ℕ := b.rsvdSecCnt.toNat + b.numFATs.toNat * b.fatSz32.toNat

/-- The sectors of the tables are added to the reserved ones that were taken off. -/
def countOfClusters (b : BootSector) : ℕ :=
  (b.totSec32.toNat + (wordSize - b.rsvdSecCnt.toNat) + b.numFATs.toNat * b.fatSz32.toNat) %
    wordSize / b.secPerClus.toNat

variable {b : BootSector} (h : b.isValid = true)

/-- The sectors and the entry of a cluster are where the volume has them. -/
structure Placed (cluster : ℕ) : Prop where
  start : dataSector b ≤ clusterToSector (.init b h) cluster
  finish : clusterToSector (.init b h) cluster + b.secPerClus.toNat ≤ b.totSec32.toNat
  entry : (countOfClusters b + 2) * 4 ≤ b.fatSz32.toNat * sectorSize →
    fatSector b ≤ (clusterToEntry (.init b h) cluster).1 ∧
      (clusterToEntry (.init b h) cluster).1 < fatSector b + b.fatSz32.toNat

def Apart (a c : ℕ) : Prop :=
  (clusterToSector (.init b h) a + b.secPerClus.toNat ≤ clusterToSector (.init b h) c ∨
    clusterToSector (.init b h) c + b.secPerClus.toNat ≤ clusterToSector (.init b h) a) ∧
  clusterToEntry (.init b h) a ≠ clusterToEntry (.init b h) c

variable {h}

/-- Where a cluster starts and ends. -/
theorem clusterToSector_eq {cluster : ℕ} (hlow : 2 ≤ cluster) (hhigh : cluster < 2 ^ 48) :
    clusterToSector (.init b h) cluster = (cluster - 2) * b.secPerClus.toNat + dataSector b ∧
      clusterToSector (.init b h) cluster + b.secPerClus.toNat =
        (cluster - 1) * b.secPerClus.toNat + dataSector b := by
  obtain ⟨-,-,hsec⟩ := BootSector.constants h
  have hfat : b.numFATs.toNat * b.fatSz32.toNat < 2 ^ 8 * 2 ^ 32 :=
    Nat.mul_lt_mul'' b.numFATs.toNat_lt b.fatSz32.toNat_lt
  have hrsvd := b.rsvdSecCnt.toNat_lt
  obtain ⟨n,rfl⟩ := Nat.exists_eq_add_of_le' hlow
  have hmul : n * b.secPerClus.toNat ≤ 2 ^ 48 * 128 := Nat.mul_le_mul (by omega) hsec
  have hdown : (n + 2 + (wordSize - 2)) % wordSize = n := by
    unfold wordSize
    omega
  have hstart : clusterToSector (.init b h) (n + 2) = n * b.secPerClus.toNat + dataSector b := by
    unfold clusterToSector dataSector FatInfo.init fatSector
    dsimp only
    rw [hdown,Nat.mul_comm b.fatSz32.toNat,Nat.mod_eq_of_lt (by unfold wordSize; omega),
      Nat.add_assoc]
  refine ⟨hstart,?_⟩
  rw [hstart,Nat.add_right_comm,← Nat.succ_mul]
  rfl

theorem apart_of_ne {a c : ℕ} (ha : a ∈ Finset.Ico 2 (2 ^ 48)) (hc : c ∈ Finset.Ico 2 (2 ^ 48))
    (hne : a ≠ c) : Apart h a c := by
  rw [Finset.mem_Ico] at ha hc
  obtain ⟨hastart,haend⟩ := clusterToSector_eq (h := h) ha.1 ha.2
  obtain ⟨hcstart,hcend⟩ := clusterToSector_eq (h := h) hc.1 hc.2
  constructor
  · rw [haend,hcend,hastart,hcstart]
    rcases Nat.lt_or_gt_of_ne hne with hlt | hlt
    · exact .inl (Nat.add_le_add_right (Nat.mul_le_mul_right _ (by omega)) _)
    · exact .inr (Nat.add_le_add_right (Nat.mul_le_mul_right _ (by omega)) _)
  · intro heq
    have hpos := (entryPos_eq (.init b h) a).1
    rw [show entryPos (.init b h) a = entryPos (.init b h) c from heq,(entryPos_eq _ c).1] at hpos
    unfold entryStart at hpos
    omega

/-- The last cluster ends `2 * NumFATs * FATSz32` sectors behind the volume, less what the division
leaves. -/
theorem clusters_placed_iff (b : BootSector) (valid : b.isValid = true) :
    (b.rsvdSecCnt.toNat ≤ b.totSec32.toNat ∧
      ∀ a ∈ Finset.Ico 2 (countOfClusters b + 2), ∀ c ∈ Finset.Ico 2 (countOfClusters b + 2),
        a ≠ c → Apart valid a c ∧ Placed valid a ∧ Placed valid c) ↔
    let fats := b.numFATs.toNat * b.fatSz32.toNat
    let sectors := b.totSec32.toNat - b.rsvdSecCnt.toNat + fats
    b.rsvdSecCnt.toNat ≤ b.totSec32.toNat ∧
      (sectors / b.secPerClus.toNat < 2 ∨ 2 * fats ≤ sectors % b.secPerClus.toNat) := by
  refine and_congr_right fun hle => ?_
  have htot := b.totSec32.toNat_lt
  have hfat : b.numFATs.toNat * b.fatSz32.toNat < 2 ^ 8 * 2 ^ 32 :=
    Nat.mul_lt_mul'' b.numFATs.toNat_lt b.fatSz32.toNat_lt
  have hdata : dataSector b = b.rsvdSecCnt.toNat + b.numFATs.toNat * b.fatSz32.toNat := rfl
  have hdiv := Nat.div_add_mod' (b.totSec32.toNat - b.rsvdSecCnt.toNat +
    b.numFATs.toNat * b.fatSz32.toNat) b.secPerClus.toNat
  have hcount : countOfClusters b = (b.totSec32.toNat - b.rsvdSecCnt.toNat +
      b.numFATs.toNat * b.fatSz32.toNat) / b.secPerClus.toNat := by
    unfold countOfClusters wordSize
    congr 1
    omega
  have hlt : countOfClusters b < 2 ^ 47 := hcount ▸ (Nat.div_le_self ..).trans_lt (by omega)
  rw [← hcount] at hdiv ⊢
  generalize hn : countOfClusters b = n at *
  simp only [Finset.mem_Ico]
  constructor
  · intro hall
    by_contra hcond
    have hlast := (hall 2 (by omega) (n + 1) (by omega) (by omega)).2.2.finish
    rw [(clusterToSector_eq (by omega) (by omega)).2,Nat.add_sub_cancel] at hlast
    omega
  · intro hcond a ha c hc hne
    have hplaced : ∀ x, 2 ≤ x ∧ x < n + 2 → Placed valid x := by
      intro x hx
      obtain ⟨hstart,hend⟩ := clusterToSector_eq (h := valid) hx.1 (by omega)
      have hmul : (x - 1) * b.secPerClus.toNat ≤ n * b.secPerClus.toNat :=
        Nat.mul_le_mul_right _ (by omega)
      refine ⟨by omega,by omega,?_⟩
      intro hfit
      have hbytes := (FatInfo.init b valid).bytePerSec_eq
      unfold clusterToEntry
      rw [hbytes]
      unfold sectorSize at *
      dsimp only [FatInfo.init]
      omega
    exact ⟨apart_of_ne (by simp; omega) (by simp; omega) hne,hplaced a ha,hplaced c hc⟩

def oneSectorClusters (rsvd tot fat : ℕ) : BootSector :=
  ⟨[0xE9], 512, 1, .ofNat rsvd, 1, 0, 0, 0, .ofNat tot, .ofNat fat, 0, 0, 0, [], 0⟩

/-- A table of one sector and clusters of eight. -/
def eightSectorClusters : BootSector := { oneSectorClusters 1 66 1 with secPerClus := 8 }

theorem clusters_placed_sample : ∃ valid, ∀ a ∈ Finset.Ico 2 10, ∀ c ∈ Finset.Ico 2 10, a ≠ c →
      Apart (b := eightSectorClusters) valid a c ∧ Placed valid a ∧ Placed valid c :=
  ⟨by decide,((clusters_placed_iff eightSectorClusters (by decide)).mpr (by decide)).2⟩

/-- A volume of ten sectors, one reserved and one of the table, is said to have ten clusters, and
the last of them starts behind its end. -/
theorem clusters_behind_end : ∃ valid : (oneSectorClusters 1 10 1).isValid = true,
    11 ∈ Finset.Ico 2 (countOfClusters (oneSectorClusters 1 10 1) + 2) ∧ ¬ Placed valid 11 :=
  ⟨by decide,by decide,fun h => absurd h.finish (by decide)⟩

end Geometry

end DuckOs.FatLayout
