import DuckOs.FatDates
import DuckOs.FatTable
import DuckOs.VfsModel

namespace DuckOs.FatDirectories
open AddressModel ChunkedArrays BlockDevices FatLayout FatTable FatDates PathModel VfsModel

structure Position where
  selfCluster : ℕ
  selfSector : ℕ
  offset : ℕ
  dataCluster : ℕ

abbrev DirEntry := Chunk UInt8 32

inductive DirEntryStatus where
  | normal
  | empty
  | free
  | special
  deriving DecidableEq

namespace DirEntry

def byte (entry : DirEntry) (i : ℕ) : UInt8 := entry.val.getD i 0

def status (entry : DirEntry) : DirEntryStatus :=
  if byte entry 0 = 0x0 then .empty
  else if byte entry 0 = 0xE5 then .free
  else if byte entry 0 = 0x2E then .special
  else .normal

def isLong (entry : DirEntry) : Bool := byte entry 11 == 0x0F

def isSpecial (entry : DirEntry) : Bool := byte entry 0 == 0x2E

end DirEntry

structure LongDirEntry where
  name1 : List UInt8
  name2 : List UInt8
  name3 : List UInt8

def changeToLongDentry (entry : DirEntry) : LongDirEntry where
  name1 := (entry.val.drop 1).take 10
  name2 := (entry.val.drop 14).take 12
  name3 := (entry.val.drop 28).take 4

structure ShortDirEntry where
  name : List UInt8
  attr : UInt8
  crtTimeTenth : ℕ
  crtTime : ℕ
  crtDate : ℕ
  lstAccDate : ℕ
  fstClusHi : ℕ
  wrtTime : ℕ
  wrtDate : ℕ
  fstClusLo : ℕ
  fileSize : ℕ

def changeToShortDentry (entry : DirEntry) : ShortDirEntry where
  name := entry.val.take 11
  attr := DirEntry.byte entry 11
  crtTimeTenth := field entry.val 13 1
  crtTime := field entry.val 14 2
  crtDate := field entry.val 16 2
  lstAccDate := field entry.val 18 2
  fstClusHi := field entry.val 20 2
  wrtTime := field entry.val 22 2
  wrtDate := field entry.val 24 2
  fstClusLo := field entry.val 26 2
  fileSize := field entry.val 28 4

def byteToUnicode (b1 b2 : UInt8) : Char :=
  let codePoint := b1.toNat + 256 * b2.toNat
  if codePoint.isValidChar then Char.ofNat codePoint else Char.ofNat 0xFFFD

def unitsToName : List UInt8 → Str
  | b1 :: b2 :: rest =>
    if b1 = 0 ∧ b2 = 0 then [] else byteToUnicode b1 b2 :: unitsToName rest
  | _ => []

def LongDirEntry.bitToName (entry : LongDirEntry) : Str :=
  unitsToName (entry.name1 ++ entry.name2 ++ entry.name3)

def insertAtByte (ch : Char) : ℕ → Str → Except Panic Str
  | 0, s => .ok (ch :: s)
  | _ + 1, [] => .error .assertion
  | n + 1, c :: s =>
    if c.utf8Size ≤ n + 1 then (c :: ·) <$> insertAtByte ch (n + 1 - c.utf8Size) s
    else .error .assertion

def ShortDirEntry.bitToName (entry : ShortDirEntry) : Except Panic Str :=
  insertAtByte '.' 8 (entry.name.map fun b => Char.ofNat b.toNat)

def ShortDirEntry.bitToTimespec (entry : ShortDirEntry) :
    Except Panic (TimeSpec × TimeSpec × TimeSpec) := do
  let acc ← fatToUnixTime entry.lstAccDate 0 0
  let wrt ← fatToUnixTime entry.wrtDate entry.wrtTime 0
  let crt ← fatToUnixTime entry.crtDate entry.crtTime entry.crtTimeTenth
  pure (unixTimeToTimespec acc, unixTimeToTimespec wrt, unixTimeToTimespec crt)

section Dentries

variable (dev : BlockDevice) (info : FatInfo)

structure FatInode where
  mode : InodeMode
  size : ℕ
  times : TimeSpec × TimeSpec × TimeSpec
  pos : Position
  fatFile : FatDiskFile

structure FatDentry where
  dName : Str
  dPath : Str
  inode : FatInode

/-- A file without contents has the cluster 0. -/
def FatDiskFile.init (dataCluster : ℕ) : Except Stop FatDiskFile := do
  if dataCluster = 0 then pure ⟨[], 0, dataCluster⟩
  else
    let clusters ← findAllCluster dev info dataCluster
    pure ⟨clusters, clusters.length * clusterBytes info, dataCluster⟩

def modeOf (attr : UInt8) : Except Panic InodeMode :=
  if attr &&& 0x3F = attr then
    .ok (if attr &&& 0x10 = 0x10 then .Directory else .Regular)
  else .error .explicit

structure Header where
  name : Str
  mode : InodeMode
  size : ℕ
  times : TimeSpec × TimeSpec × TimeSpec
  pos : Position

def headerOf (name : Str) (entry : ShortDirEntry) (pos : Position) : Except Panic Header := do
  let mode ← modeOf entry.attr
  let times ← entry.bitToTimespec
  pure ⟨name, mode, entry.fileSize, times, pos⟩

def shortHeader (dirPos : DirEntry × Position) : Except Panic Header := do
  let entry := changeToShortDentry dirPos.1
  let name ← entry.bitToName
  let dataClus := (entry.fstClusLo + entry.fstClusHi) * 2 ^ 16 % 2 ^ 32
  headerOf name entry { dirPos.2 with dataCluster := dataClus }

def longHeader (longs : List (DirEntry × Position)) (dirPos : DirEntry × Position) :
    Except Panic Header :=
  let entry := changeToShortDentry dirPos.1
  let name := longs.reverse.flatMap fun dir => (changeToLongDentry dir.1).bitToName
  let dataClus := entry.fstClusLo ||| entry.fstClusHi * 2 ^ 16
  headerOf name entry { dirPos.2 with dataCluster := dataClus }

structure Group where
  longs : List (DirEntry × Position)
  short : DirEntry × Position

def Group.header (group : Group) : Except Panic Header :=
  if group.longs.isEmpty then shortHeader group.short else longHeader group.longs group.short

def parseName (group : Group) : Except Stop FatDentry := do
  let header ← group.header.mapError .panic
  let file ← FatDiskFile.init dev info header.pos.dataCluster
  pure ⟨header.name, [], header.mode, header.size, header.times, header.pos, file⟩

/-- The rounds of `parse_child`: `longs` are the entries from `start` on. Entries for the directory
itself and its parent are left out if nothing stands in front of them. -/
def groups (longs : List (DirEntry × Position)) : List (DirEntry × Position) → List Group
  | [] => []
  | dir :: rest =>
    if DirEntry.isLong dir.1 then groups (longs ++ [dir]) rest
    else if longs.isEmpty && DirEntry.isSpecial dir.1 then groups [] rest
    else ⟨longs, dir⟩ :: groups [] rest

def parseChild (dirPos : List (DirEntry × Position)) : Except Stop (List FatDentry) :=
  (groups [] dirPos).mapM (parseName dev info)

end Dentries

end DuckOs.FatDirectories
