import DuckOs.Ext4FileModel

namespace DuckOs.SimpleFileModel
open AddressModel PermissionFlags KernelMachine PageModel VirtMemoryModel
open Ext4FileModel

/-- `SimpleInode::new`. Reading the inode itself is not implemented. -/
def SimpleInode.new (size : ℕ) : Inode := ⟨size, fun _ _ => none⟩

/-- The file keeps a weak reference. -/
def upgrade (inode : ℕ) : Kernel Inode := do
  let m ← get
  unwrap .unwrapNone (m.inodes inode)

namespace SimpleFile

/-- The offset reached and the bytes. Each round reads at least one byte. -/
def readLoop (pageCache bufLen : ℕ) : ℕ → ℕ → ℕ → List UInt8 → Kernel (ℕ × List UInt8)
  | 0, _, fileOffset, acc => pure (fileOffset, acc)
  | fuel + 1, bufOffset, fileOffset, acc =>
    if bufLen ≤ bufOffset then pure (fileOffset, acc)
    else do
      match ← PageCache.findPageAndCreate pageCache fileOffset none with
      -- taken for the end of the file
      | none => pure (fileOffset, acc)
      | some page => do
        let pageOffset := fileOffset % pageSize
        let byte := min (pageSize - pageOffset) (bufLen - bufOffset)
        let bytes ← Page.read page pageOffset byte
        arcDrop page
        readLoop pageCache bufLen fuel (bufOffset + byte) (wrappingAdd fileOffset byte)
          (acc ++ bytes)

def read (self : OpenFile) (bufLen : ℕ) (flags : OpenFlags) :
    Kernel (OpenFile × Except Errno (ℕ × List UInt8)) :=
  if contains flags OpenFlags.O_PATH then pure (self, .error .EBADF)
  else do
    let _ ← upgrade self.inode
    let r ← readLoop self.pageCache bufLen (bufLen + 1) 0 self.pos []
    pure ({ self with pos := r.1 }, .ok (r.2.length, r.2))

/-- The offset reached and the number of bytes written. The size of the inode is left alone. -/
def writeLoop (pageCache : ℕ) (buf : List UInt8) : ℕ → ℕ → ℕ → Kernel (ℕ × ℕ)
  | 0, bufOffset, fileOffset => pure (fileOffset, bufOffset)
  | fuel + 1, bufOffset, fileOffset =>
    if buf.length ≤ bufOffset then pure (fileOffset, bufOffset)
    else do
      match ← PageCache.findPageAndCreate pageCache fileOffset none with
      | none => pure (fileOffset, bufOffset)
      | some page => do
        let pageOffset := fileOffset % pageSize
        let byte := min (pageSize - pageOffset) (buf.length - bufOffset)
        Page.write page pageOffset ((buf.drop bufOffset).take byte)
        arcDrop page
        writeLoop pageCache buf fuel (bufOffset + byte) (wrappingAdd fileOffset byte)

def write (self : OpenFile) (buf : List UInt8) (flags : OpenFlags) :
    Kernel (OpenFile × Except Errno ℕ) :=
  if contains flags OpenFlags.O_PATH then pure (self, .error .EBADF)
  else do
    let _ ← upgrade self.inode
    let r ← writeLoop self.pageCache buf (buf.length + 1) 0 self.pos
    pure ({ self with pos := r.1 }, .ok r.2)

/-- The trait's own `seek`, which no file system overrides. -/
def seek (self : OpenFile) (target : SeekFrom) : Kernel (OpenFile × Except Errno ℕ) :=
  Ext4MemFile.seek self target

end SimpleFile

namespace SimpleDentry

/-- The inode of a new regular file. -/
def mknod (inode : ℕ) : Kernel Unit :=
  modify fun m => { m with
    inodes := Function.update m.inodes inode (some (SimpleInode.new 0)) }

/-- `SimpleDentry::open`: a page cache of its own for every open file, then the same steps as for
a file of the disk. -/
def openFile (pageCache inode : ℕ) (flags : OpenFlags) : Kernel OpenFile := do
  modify fun m => { m with pageCaches := Function.update m.pageCaches pageCache ∅ }
  Ext4FileModel.openFile pageCache inode flags

/-- A file that `sys_openat` creates and opens. -/
def createAndOpen (pageCache inode : ℕ) (flags : OpenFlags) : Kernel OpenFile := do
  mknod inode
  openFile pageCache inode flags

end SimpleDentry

end DuckOs.SimpleFileModel
