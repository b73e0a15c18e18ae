import DuckOs.VirtMemoryModel

/-! Open files of the ext4 file system. The page cache and the position belong
to the open file, the size to the inode. -/
namespace DuckOs.Ext4FileModel
open AddressModel PermissionFlags KernelMachine PageModel VirtMemoryModel Function
open OrderedMaps (BTreeMap)

/-- The declared bits are taken as they come from the call. -/
abbrev OpenFlags := BitVec 32

namespace OpenFlags
def O_RDONLY : OpenFlags := 0#32
def O_WRONLY : OpenFlags := 1#32
def O_RDWR : OpenFlags := 2#32
def O_CREAT : OpenFlags := 0x40#32
def O_EXCL : OpenFlags := 0x80#32
def O_TRUNC : OpenFlags := 0x200#32
def O_APPEND : OpenFlags := 0x400#32
def O_DIRECTORY : OpenFlags := 0x10000#32
def O_CLOEXEC : OpenFlags := 0x80000#32
def O_PATH : OpenFlags := 0x200000#32

def isWritable (flags : OpenFlags) : Bool := contains flags O_WRONLY || contains flags O_RDWR

/-- `O_RDONLY` has no bits, so every word contains it. -/
def isReadable (flags : OpenFlags) : Bool := contains flags O_RDONLY || contains flags O_RDWR
end OpenFlags

/-- What `FileMeta` and its inner part say of an open regular file. -/
structure OpenFile where
  pageCache : ℕ
  inode : ℕ
  pos : ℕ

/-- `fromEnd` is the variant `End`. -/
inductive SeekFrom where
  | start (pos : ℕ)
  | current (pos : ℤ)
  | fromEnd (pos : ℤ)

def iSize (inode : ℕ) : Kernel ℕ := do
  let m ← get
  let node ← unwrap .unwrapNone (m.inodes inode)
  pure node.size

def raiseSize (inode limit : ℕ) : Kernel Unit :=
  modify fun m => { m with
    inodes := update m.inodes inode
      ((m.inodes inode).map fun node => { node with size := max node.size limit }) }

def setSize (inode size : ℕ) : Kernel Unit :=
  modify fun m => { m with
    inodes := update m.inodes inode
      ((m.inodes inode).map fun node => { node with size := size }) }

namespace Ext4MemFile

/-- The page of the file at an offset, with a handle that the round drops again. -/
def pageFor (pageCache inode fileOffset : ℕ) : Kernel Page := do
  let found ← PageCache.findPageAndCreate pageCache fileOffset (some inode)
  unwrap .unwrapNone found

/-- The offset reached and the bytes. Each round reads at least one byte, so `bufLen + 1` rounds
are enough. -/
def readLoop (pageCache inode bufLen : ℕ) : ℕ → ℕ → ℕ → List UInt8 → Kernel (ℕ × List UInt8)
  | 0, _, fileOffset, acc => pure (fileOffset, acc)
  | fuel + 1, bufOffset, fileOffset, acc => do
    let fileSize ← iSize inode
    if fileSize ≤ fileOffset ∨ bufLen ≤ bufOffset then pure (fileOffset, acc)
    else do
      let page ← pageFor pageCache inode fileOffset
      let pageOffset := fileOffset % pageSize
      let byte := min (min (pageSize - pageOffset) (bufLen - bufOffset)) (fileSize - fileOffset)
      let bytes ← Page.read page pageOffset byte
      arcDrop page
      readLoop pageCache inode bufLen fuel (bufOffset + byte) (wrappingAdd fileOffset byte)
        (acc ++ bytes)

/-- The number of bytes read, and the bytes. -/
def read (self : OpenFile) (bufLen : ℕ) (flags : OpenFlags) :
    Kernel (OpenFile × Except Errno (ℕ × List UInt8)) :=
  if contains flags OpenFlags.O_PATH then pure (self, .error .EBADF)
  else do
    let r ← readLoop self.pageCache self.inode bufLen (bufLen + 1) 0 self.pos []
    pure ({ self with pos := r.1 }, .ok (r.2.length, r.2))

def writeLoop (pageCache inode : ℕ) (buf : List UInt8) : ℕ → ℕ → ℕ → Kernel ℕ
  | 0, _, fileOffset => pure fileOffset
  | fuel + 1, bufOffset, fileOffset =>
    if buf.length ≤ bufOffset then pure fileOffset
    else do
      let page ← pageFor pageCache inode fileOffset
      let pageOffset := fileOffset % pageSize
      let byte := min (pageSize - pageOffset) (buf.length - bufOffset)
      Page.write page pageOffset ((buf.drop bufOffset).take byte)
      let fileOffset := wrappingAdd fileOffset byte
      raiseSize inode fileOffset
      arcDrop page
      writeLoop pageCache inode buf fuel (bufOffset + byte) fileOffset

def write (self : OpenFile) (buf : List UInt8) (flags : OpenFlags) :
    Kernel (OpenFile × Except Errno ℕ) :=
  if contains flags OpenFlags.O_PATH then pure (self, .error .EBADF)
  else do
    let fileOffset ← writeLoop self.pageCache self.inode buf (buf.length + 1) 0 self.pos
    pure ({ self with pos := fileOffset }, .ok buf.length)

/-- A position before the start of the file is refused. -/
def moveBy (base : ℕ) (delta : ℤ) : Option ℕ :=
  if delta < 0 then
    if base < delta.natAbs then none else some (base - delta.natAbs)
  else some (wrappingAdd base delta.toNat)

def seekTarget (pos dataLen : ℕ) : SeekFrom → Option ℕ
  | .start target => some target
  | .current delta => moveBy pos delta
  | .fromEnd delta => moveBy dataLen delta

def seek (self : OpenFile) (target : SeekFrom) : Kernel (OpenFile × Except Errno ℕ) := do
  let dataLen ← iSize self.inode
  match seekTarget self.pos dataLen target with
  | none => pure (self, .error .EINVAL)
  | some pos => pure ({ self with pos := pos }, .ok pos)

/-- The position is locked when `seek` locks it again. A longer size has already made the
allocation of the zeros fail. -/
def truncate (self : OpenFile) (newSize : ℕ) : Kernel Unit := do
  let oldSize ← iSize self.inode
  if oldSize < newSize then throw .explicit else throw .deadlock

/-- Taking the lock of the position. -/
def lockPos (locked : Bool) : Kernel Unit := if locked then throw .deadlock else pure ()

/-- All the steps of `truncate`, which keeps the position `locked` to its end. Both branches ask for
`old_file_size - new_size` zeros; `onDisk` is the call of the library. -/
def truncateSteps (locked : Bool) (onDisk : ℕ → Kernel (Except Errno Unit)) (self : OpenFile)
    (newSize : ℕ) : Kernel (OpenFile × Except Errno ℕ) := do
  let oldSize ← iSize self.inode
  if oldSize < newSize then throw .explicit
  else do
    lockPos locked
    let moved ← seek self (.start (if newSize < oldSize then newSize else oldSize))
    lockPos locked
    let written ← write moved.1 (List.replicate (oldSize - newSize) 0) 0#32
    lockPos locked
    let back ← seek written.1 (.start self.pos)
    if newSize < oldSize then setSize self.inode newSize
    let done ← onDisk newSize
    pure (back.1, done.map fun _ => 0)

end Ext4MemFile

/-- `Ext4Dentry::open`: every open file has a page cache of its own. -/
def openFile (pageCache inode : ℕ) (flags : OpenFlags) : Kernel OpenFile := do
  let file : OpenFile := ⟨pageCache, inode, 0⟩
  if contains flags OpenFlags.O_TRUNC then Ext4MemFile.truncate file 0
  if contains flags OpenFlags.O_APPEND then do
    let r ← Ext4MemFile.seek file (.fromEnd 0)
    pure r.1
  else pure file

/-- The page cache goes with its open file. Nothing is written back. -/
def dropCache (pageCache : ℕ) : Kernel Unit := do
  let m ← get
  dropPages (m.pageCaches pageCache)
  modify fun m => { m with pageCaches := update m.pageCaches pageCache ∅ }

/-- The part of a descriptor that its calls use. -/
structure FdInfo where
  file : OpenFile
  flags : OpenFlags

def sysRead (info : FdInfo) (count : ℕ) : Kernel (OpenFile × Except Errno (ℕ × List UInt8)) :=
  if info.flags.isReadable = false then pure (info.file, .error .EBADF)
  else if count = 0 then pure (info.file, .ok (0, []))
  else Ext4MemFile.read info.file count info.flags

def sysWrite (info : FdInfo) (buf : List UInt8) : Kernel (OpenFile × Except Errno ℕ) :=
  if info.flags.isWritable = false then pure (info.file, .error .EBADF)
  else if buf.length = 0 then pure (info.file, .ok 0)
  else Ext4MemFile.write info.file buf info.flags

end DuckOs.Ext4FileModel
