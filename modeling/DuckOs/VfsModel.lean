import DuckOs.PathModel
import DuckOs.Ext4FileModel

/-! The tree of directory entries, the cache that maps paths to them, the table
of mounted file systems, and the calls that change these. The lwext4 library
below is a parameter. -/
namespace DuckOs.VfsModel
open ExecutionRules AddressModel PermissionFlags VirtMemoryModel Ext4FileModel PathModel Function

abbrev StrMap (α : Type) := AList fun _ : Str => α

inductive InodeMode where
  | Socket
  | Link
  | Regular
  | Block
  | Directory
  | Char
  | FIFO
  | UNKNOWN
  deriving DecidableEq

/-- The implementations of the trait `Dentry`; the devices and the files of procfs are alike in
what they do to the tree. -/
inductive DentryKind where
  | ext4
  | simple
  | device
  deriving DecidableEq

structure Dentry where
  kind : DentryKind
  dName : Str
  dPath : Str
  dInode : ℕ
  dParent : Option ℕ
  dChild : StrMap ℕ

/-- An inode is named by its `i_ino`. -/
structure InodeMeta where
  iMode : InodeMode
  iLinkCount : ℕ
  iOpenCount : ℕ
  deriving DecidableEq

inductive FSType where
  | VFAT
  | EXT4
  | ProcFs
  | DevFs
  | TmpFs
  deriving DecidableEq

/-- A mounted file system; the empty one has no root. -/
structure FileSystem where
  fType : FSType
  rootDentry : Option ℕ

structure Vfs (δ : Type) where
  dentries : ℕ → Option Dentry
  nextDentry : ℕ
  inodes : ℕ → Option InodeMeta
  nextInode : ℕ
  /-- the static `DENTRY_CACHE` -/
  cache : StrMap ℕ
  /-- the static `FILE_SYSTEM_MANAGER` -/
  manager : StrMap FileSystem
  disk : δ
  /-- the calls of `lwext4_rmfile` so far: for which inode, and on which path -/
  rmfiles : List (ℕ × Str)

inductive InodeTypes where
  | regFile
  | dir
  | symlink
  deriving DecidableEq

/-- The library below, with its own state. -/
structure Lwext4 (δ : Type) where
  checkInodeExist : δ → Str → InodeTypes → Bool
  /-- the flag says whether the file is created -/
  fileOpen : Str → Bool → EStateM Errno δ Unit
  dirOpen : Str → EStateM Errno δ Unit
  dirCreate : Str → EStateM Errno δ Unit
  /-- without the entries for the directory and its parent -/
  dirEntries : δ → Str → Option (List (Str × InodeMode))
  rmfile : Str → EStateM Errno δ Unit
  rmdir : Str → EStateM Errno δ Unit
  mvfile : Str → Str → EStateM Errno δ Unit
  mvdir : Str → Str → EStateM Errno δ Unit
  link : Str → Str → EStateM Errno δ Unit
  symlink : Str → Str → EStateM Errno δ Unit

/-- A call ends with an error, or the kernel stops. -/
inductive Fault where
  | errno (e : Errno)
  | panic (p : Panic)
  deriving DecidableEq

abbrev Fs (δ : Type) := EStateM Fault (Vfs δ)

variable {δ : Type}

def fail {α : Type} (e : Errno) : Fs δ α := throw (.errno e)

def stop {α : Type} (p : Panic) : Fs δ α := throw (.panic p)

def unwrap {α : Type} : Option α → Fs δ α
  | some a => pure a
  | none => stop .unwrapNone

def okOr {α : Type} (e : Errno) : Option α → Fs δ α
  | some a => pure a
  | none => fail e

def dentry (id : ℕ) : Fs δ Dentry := do
  let s ← get
  unwrap (s.dentries id)

def inodeMeta (ino : ℕ) : Fs δ InodeMeta := do
  let s ← get
  unwrap (s.inodes ino)

namespace Vfs

def withDentry (s : Vfs δ) (id : ℕ) (f : Dentry → Dentry) : Vfs δ :=
  { s with dentries := update s.dentries id ((s.dentries id).map f) }

def insertChild (s : Vfs δ) (parent : ℕ) (name : Str) (child : ℕ) : Vfs δ :=
  s.withDentry parent fun d => { d with dChild := d.dChild.insert name child }

def removeChild (s : Vfs δ) (parent : ℕ) (name : Str) : Vfs δ :=
  s.withDentry parent fun d => { d with dChild := d.dChild.erase name }

def cacheInsert (s : Vfs δ) (path : Str) (id : ℕ) : Vfs δ :=
  { s with cache := s.cache.insert path id }

def cacheRemove (s : Vfs δ) (path : Str) : Vfs δ :=
  { s with cache := s.cache.erase path }

def setInode (s : Vfs δ) (ino : ℕ) (info : InodeMeta) : Vfs δ :=
  { s with inodes := update s.inodes ino (some info) }

end Vfs

def onDisk {α : Type} (x : EStateM Errno δ α) : Fs δ α := fun s =>
  match x s.disk with
  | .ok a disk => .ok a { s with disk := disk }
  | .error e disk => .error (.errno e) { s with disk := disk }

/-- `.ok()`: whether the library succeeded. -/
def tryDisk (x : EStateM Errno δ Unit) : Fs δ Bool := fun s =>
  match x s.disk with
  | .ok _ disk => .ok true { s with disk := disk }
  | .error _ disk => .ok false { s with disk := disk }

def newInode (mode : InodeMode) : Fs δ ℕ :=
  modifyGet fun s => (s.nextInode, { s with
    inodes := update s.inodes s.nextInode (some ⟨mode, 1, 0⟩)
    nextInode := s.nextInode + 1 })

/-- `DentryMeta::new` formats the name. -/
def newDentry (kind : DentryKind) (name path : Str) (inode : ℕ) (parent : Option ℕ) : Fs δ ℕ :=
  modifyGet fun s => (s.nextDentry, { s with
    dentries := update s.dentries s.nextDentry
      (some ⟨kind, formatPath name, path, inode, parent, ∅⟩)
    nextDentry := s.nextDentry + 1 })

def cwdAndName (name cwd : Str) : Fs δ Str :=
  if '/' ∈ name then stop .explicit else pure (joinName name cwd)

/-- After an error of a call the system goes on. -/
def settled {σ α : Type} (x : EStateM Fault σ α) : EStateM Fault σ Unit := fun s =>
  match x s with
  | .ok _ s' => .ok () s'
  | .error (.errno _) s' => .ok () s'
  | .error (.panic p) s' => .error (.panic p) s'

theorem settled_holds {σ α : Type} {s : σ} {x : EStateM Fault σ α} {P : σ → Prop}
    (h : Holds x s (fun _ s' => P s') fun e s' => ∀ err, e = .errno err → P s') :
    Holds (settled x) s (fun _ s' => P s') fun _ _ => True := by
  unfold Holds settled at *
  cases hx : x s with
  | ok a s' =>
    rw [hx] at h
    exact h
  | error e s' =>
    rw [hx] at h
    cases e with
    | errno err => exact h err rfl
    | panic p => trivial

variable (lw : Lwext4 δ)

/-- The inode of an entry that only the disk has. A directory found this way is taken for a
regular file. -/
def loadInode (path : Str) : Fs δ (Option ℕ) := do
  let s ← get
  if lw.checkInodeExist s.disk path .regFile then do
    if ← tryDisk (lw.fileOpen path false) then some <$> newInode .Regular else pure none
  else if lw.checkInodeExist s.disk path .dir then do
    if ← tryDisk (lw.dirOpen path) then some <$> newInode .Regular else pure none
  else if lw.checkInodeExist s.disk path .symlink then some <$> newInode .Link
  else pure none

def lookUp (self : ℕ) (name : Str) : Fs δ (Option ℕ) := do
  let d ← dentry self
  match d.kind with
  | .device => pure none
  | .simple => pure (d.dChild.lookup name)
  | .ext4 =>
    match d.dChild.lookup name with
    | some child => pure (some child)
    | none => do
      let path ← cwdAndName name d.dPath
      match ← loadInode lw path with
      | none => pure none
      | some inode => do
        let child ← newDentry .ext4 name path inode (some self)
        modify fun s => (s.insertChild self name child).cacheInsert path child
        pure (some child)

/-- The part of `create` that differs between the file systems. -/
def makeNode (kind : DentryKind) (path : Str) (mode : InodeMode) : Fs δ Unit :=
  match kind, mode with
  | .ext4, .Directory => onDisk (lw.dirCreate path)
  | .ext4, .Regular => onDisk (lw.fileOpen path true)
  | .simple, .Directory => pure ()
  | .simple, .Regular => pure ()
  | _, _ => stop .todo

def create (self : ℕ) (name : Str) (mode : InodeMode) : Fs δ ℕ := do
  let d ← dentry self
  if d.kind = .device then fail .ENOTDIR
  else do
    let path ← cwdAndName name d.dPath
    makeNode lw d.kind path mode
    let inode ← newInode mode
    let child ← newDentry d.kind (dentryName path) path inode none
    modify fun s => ((s.insertChild self name child).withDentry child fun c =>
      { c with dParent := some self }).cacheInsert path child
    pure child

/-- `i_link_count` and `i_open_count` are machine words. -/
def wordPred (n : ℕ) : ℕ := (n + (wordSize - 1)) % wordSize

def rmfile (inode : ℕ) (path : Str) : Fs δ Unit := do
  modify fun s => { s with rmfiles := s.rmfiles ++ [(inode, path)] }
  onDisk (lw.rmfile path)

/-- What `unlink` does to the inode and the disk once the entry is out of the tree. -/
def dropNode (kind : DentryKind) (c : Dentry) : Fs δ Unit := do
  let inode ← inodeMeta c.dInode
  match inode.iMode with
  | .Regular => do
    modify fun s => s.setInode c.dInode { inode with iLinkCount := wordPred inode.iLinkCount }
    if kind = .ext4 ∧ wordPred inode.iLinkCount = 0 ∧ inode.iOpenCount = 0 then
      rmfile lw c.dInode c.dPath
    else pure ()
  | .Directory => if kind = .ext4 then onDisk (lw.rmdir c.dPath) else pure ()
  | _ => stop .todo

def unlink (self child : ℕ) : Fs δ Unit := do
  let d ← dentry self
  if d.kind = .device then fail .ENOTDIR
  else do
    let c ← dentry child
    modify fun s => ((s.withDentry child fun c => { c with dParent := none }).cacheRemove
      c.dPath).removeChild self c.dName
    dropNode lw d.kind c

def link (self parent : ℕ) (newName : Str) : Fs δ Unit := do
  let d ← dentry self
  if d.kind = .device then stop .todo
  else do
    let inode ← inodeMeta d.dInode
    modify fun s => s.setInode d.dInode { inode with iLinkCount := inode.iLinkCount + 1 }
    let p ← dentry parent
    let path ← cwdAndName newName p.dPath
    let child ← newDentry d.kind newName path d.dInode (some parent)
    modify fun s => (s.insertChild parent newName child).cacheInsert path child
    if d.kind = .ext4 then onDisk (lw.link d.dPath path) else pure ()

def symbolLink (self : ℕ) (name target : Str) : Fs δ Unit := do
  let d ← dentry self
  if d.kind = .ext4 then do
    let path ← cwdAndName name d.dPath
    let inode ← newInode .Link
    let child ← newDentry .ext4 name path inode (some self)
    modify fun s => (s.cacheInsert path child).insertChild self name child
    onDisk (lw.symlink target path)
  else stop .todo

/-- The entry that has the new name already. Both parents are locked here, so `unlink` on the
new parent waits forever, as does a look at an entry that is one of the parents. -/
def overlapping (self newParent overlap : ℕ) : Fs δ Unit := do
  if overlap = self ∨ overlap = newParent then stop .deadlock
  else do
    let o ← dentry overlap
    let inode ← inodeMeta o.dInode
    if inode.iMode = .Regular ∨ inode.iMode = .Directory ∧ o.dChild.entries.isEmpty then do
      modify fun s => (s.withDentry overlap fun c => { c with dParent := none }).cacheRemove o.dPath
      stop .deadlock
    else if inode.iMode = .Directory then fail .ENOTEMPTY
    else stop .todo

def moveNode (mode : InodeMode) (oldPath newPath : Str) : Fs δ Unit :=
  match mode with
  | .Regular => onDisk (lw.mvfile oldPath newPath)
  | .Directory => onDisk (lw.mvdir oldPath newPath)
  | _ => stop .todo

def rename (self : ℕ) (oldName : Str) (newParent : ℕ) (newName : Str) : Fs δ Unit := do
  let old ← dentry self
  if old.kind = .ext4 then
    if self = newParent then stop .deadlock
    else do
      let new ← dentry newParent
      let newPath ← cwdAndName newName new.dPath
      match new.dChild.lookup newName with
      | some overlap => overlapping self newParent overlap
      | none => pure ()
      let child ← unwrap (old.dChild.lookup oldName)
      modify fun s => s.removeChild self oldName
      if child = self ∨ child = newParent then stop .deadlock
      else do
        let c ← dentry child
        let inode ← inodeMeta c.dInode
        let oldPath ← cwdAndName oldName old.dPath
        modify fun s => ((((s.withDentry child fun c =>
          { c with dName := newName, dPath := newPath, dParent := some newParent }).insertChild
            newParent newName child).cacheRemove oldPath).cacheInsert newPath child)
        moveNode lw inode.iMode oldPath newPath
  else stop .todo

def rootDentry : Fs δ ℕ := do
  let s ← get
  let fs ← unwrap (s.manager.lookup ['/'])
  match fs.rootDentry with
  | some root => pure root
  | none => stop .todo

def walkPath : ℕ → List Str → Fs δ (Option ℕ)
  | pa, [] => pure (some pa)
  | pa, name :: rest => do
    let d ← dentry pa
    match d.dChild.lookup name with
    | some next => do
      let n ← dentry next
      modify fun s => s.cacheInsert n.dPath next
      walkPath next rest
    | none => do
      match ← lookUp lw pa name with
      | some next => walkPath next rest
      | none => pure none

def pathToDentry (path : Str) : Fs δ (Option ℕ) := do
  let s ← get
  match s.cache.lookup path with
  | some found => pure (some found)
  | none => do
    let root ← rootDentry
    walkPath lw root (components path)

/-- The entries of a directory on disk, each as a new child. -/
def loadEntries (this : ℕ) (cwd : Str) : List (Str × InodeMode) → Fs δ Unit
  | [] => pure ()
  | (name, mode) :: rest => do
    let path ← cwdAndName name cwd
    match mode with
    | .Regular => onDisk (lw.fileOpen path false)
    | .Directory => onDisk (lw.dirOpen path)
    | _ => stop .todo
    let inode ← newInode mode
    let child ← newDentry .ext4 name path inode (some this)
    modify fun s => (s.insertChild this name child).cacheInsert path child
    loadEntries this cwd rest

def loadChild (this : ℕ) : Fs δ Unit := do
  let d ← dentry this
  let s ← get
  let entries ← unwrap (lw.dirEntries s.disk d.dPath)
  loadEntries lw this d.dPath entries

/-- Directories deeper than the first argument overflow the stack of the kernel. -/
def loadAllChild : ℕ → ℕ → Fs δ Unit
  | 0, _ => stop .explicit
  | depth + 1, this => do
    let d ← dentry this
    let inode ← inodeMeta d.dInode
    if inode.iMode = .Directory then do
      loadChild lw this
      let d ← dentry this
      d.dChild.entries.foldlM (fun _ entry => loadAllChild depth entry.2) ()
    else pure ()

/-- The root of devfs, tmpfs or procfs. The parent is the one that the cache has. -/
def newSimpleFs (mountPoint : Str) : Fs δ ℕ := do
  let inode ← newInode .Directory
  let name := dentryName mountPoint
  if mountPoint = ['/'] then newDentry .simple name mountPoint inode none
  else do
    let s ← get
    let parent ← unwrap (s.cache.lookup (parentPath mountPoint))
    let root ← newDentry .simple name mountPoint inode (some parent)
    modify fun s => s.insertChild parent name root
    pure root

def newExt4Fs (depth : ℕ) (mountPoint : Str) : Fs δ ℕ := do
  let name := dentryName mountPoint
  onDisk (lw.dirOpen mountPoint)
  let inode ← newInode .Directory
  let parent ← if mountPoint = ['/'] then pure none else pathToDentry lw (parentPath mountPoint)
  let root ← newDentry .ext4 name mountPoint inode parent
  match parent with
  | some parent => modify fun s => s.insertChild parent name root
  | none => pure ()
  loadAllChild lw depth root
  pure root

/-- Only the disk of the root file system is a device; no FAT volume is ever mounted. -/
def mount (depth : ℕ) (mountPoint : Str) (device : Bool) (fsType : FSType) : Fs δ Unit :=
  if device = false ∧ fsType = .VFAT then
    modify fun s => { s with manager := s.manager.insert mountPoint ⟨.VFAT, none⟩ }
  else do
    let root ← match fsType with
      | .VFAT => stop .todo
      | .EXT4 => if device then newExt4Fs lw depth mountPoint else stop .unwrapNone
      | _ => newSimpleFs mountPoint
    modify fun s => { s.cacheInsert mountPoint root with
      manager := s.manager.insert mountPoint ⟨fsType, some root⟩ }

/-- One device or file of procfs. Its path is the root's with the name right behind it. -/
def initFile (root : ℕ) (paPath name : Str) (mode : InodeMode) : Fs δ Unit := do
  let inode ← newInode mode
  let child ← newDentry .device name (paPath ++ name) inode (some root)
  modify fun s => (s.insertChild root name child).cacheInsert (paPath ++ name) child

def devFiles : List (Str × InodeMode) :=
  [(['z', 'e', 'r', 'o'], .Char), (['n', 'u', 'l', 'l'], .Char), (['r', 't', 'c'], .Regular),
    (['c', 'p', 'u', '_', 'p', 'm', 'a', '_', 'l', 'a', 't', 'e', 'n', 'c', 'y'], .Char),
    (['u', 'r', 'a', 'n', 'd', 'o', 'm'], .Char), (['t', 't', 'y'], .Char)]

def procFiles : List (Str × InodeMode) :=
  [(['m', 'e', 'm', 'i', 'n', 'f', 'o'], .Regular), (['m', 'o', 'u', 'n', 't', 's'], .Regular)]

def initFiles (root : ℕ) (files : List (Str × InodeMode)) : Fs δ Unit := do
  let d ← dentry root
  files.foldlM (fun _ file => initFile root d.dPath file.1 file.2) ()

def init (mountPoint : Str) : Fs δ Unit := do
  let s ← get
  let fs ← unwrap (s.manager.lookup mountPoint)
  match fs.fType, fs.rootDentry with
  | .DevFs, some root => initFiles root devFiles
  | .ProcFs, some root => initFiles root procFiles
  | _, _ => stop .todo

/-- The table of mounts is locked when the walk from the root locks it again, so the parent
must be in the cache. The feature `preliminary` keeps `/mnt` in the cache. -/
def unmount (mountPoint : Str) : Fs δ Unit := do
  let s ← get
  match s.manager.lookup mountPoint with
  | none => fail .ENOENT
  | some _ =>
    match s.cache.lookup (parentPath mountPoint) with
    | none => stop .deadlock
    | some parent => do
      modify fun s => s.removeChild parent (dentryName mountPoint)
      if mountPoint ≠ ['/', 'm', 'n', 't'] then
        modify fun s => s.cacheRemove mountPoint
      else pure ()
      modify fun s => { s with manager := s.manager.erase mountPoint }

/-- `Dentry::open` as far as the tree and the counts go. `truncate` locks the position of the
file twice. -/
def openDentry (id : ℕ) (flags : OpenFlags) : Fs δ Unit := do
  let d ← dentry id
  let inode ← inodeMeta d.dInode
  modify fun s => s.setInode d.dInode { inode with iOpenCount := inode.iOpenCount + 1 }
  if d.kind ≠ .device ∧ contains flags OpenFlags.O_TRUNC then stop .deadlock else pure ()

/-- The entry that a call of `openat` opens, and with which flags. -/
def sysOpenat (path : Str) (flags : OpenFlags) : Fs δ (ℕ × OpenFlags) := do
  match ← pathToDentry lw path with
  | some found => do
    let d ← dentry found
    let inode ← inodeMeta d.dInode
    let flags := if inode.iMode = .Regular ∧ flags.isWritable then flags
      else flags &&& ~~~OpenFlags.O_TRUNC
    if contains flags OpenFlags.O_DIRECTORY ∧ inode.iMode ≠ .Directory then fail .ENOTDIR
    else if contains flags OpenFlags.O_CREAT ∧ contains flags OpenFlags.O_EXCL then fail .EEXIST
    else do
      openDentry found flags
      pure (found, flags)
  | none =>
    if contains flags OpenFlags.O_CREAT then do
      let fa ← pathToDentry lw (parentPath path)
      let fa ← unwrap fa
      let child ← create lw fa (dentryName path) .Regular
      openDentry child flags
      pure (child, flags)
    else fail .ENOENT

def sysMkdirat (path : Str) : Fs δ Unit := do
  match ← pathToDentry lw path with
  | some _ => fail .EEXIST
  | none => do
    let fa ← pathToDentry lw (parentPath path)
    let fa ← unwrap fa
    let d ← dentry fa
    let inode ← inodeMeta d.dInode
    if inode.iMode ≠ .Directory then fail .ENOTDIR
    else do
      let _ ← create lw fa (dentryName path) .Directory
      pure ()

/-- The path that `chdir` looks up; it becomes the working directory as it is. -/
def chdirPath (cwd path : Str) : Str :=
  let path := formatPath path
  if isRelativePath path then cwdAndPath path cwd else path

/-- The new working directory of the process. -/
def sysChdir (cwd : Str) (ptr : List UInt8) : Fs δ Str := do
  let path := chdirPath cwd (cPtrToString ptr)
  let found ← pathToDentry lw path
  let id ← okOr .ENOENT found
  let d ← dentry id
  let inode ← inodeMeta d.dInode
  if inode.iMode ≠ .Directory then fail .ENOTDIR
  else pure path

/-- The flag says whether `AT_REMOVEDIR` is set. -/
def sysUnlinkat (cwd path : Str) (removeDir : Bool) : Fs δ Unit :=
  if path = cwd then fail .EBUSY
  else do
    let found ← pathToDentry lw path
    let found ← okOr .ENOENT found
    let d ← dentry found
    let inode ← inodeMeta d.dInode
    if inode.iMode = .Directory then
      if removeDir then
        if d.dChild.entries.isEmpty then
          match d.dParent with
          | none => fail .EPERM
          | some parent => unlink lw parent found
        else fail .ENOTEMPTY
      else fail .EISDIR
    else
      match d.dParent with
      | none => fail .EPERM
      | some parent => unlink lw parent found

def sysLinkat (oldPath newPath : Str) : Fs δ Unit := do
  let s ← get
  if (s.cache.lookup newPath).isSome then fail .EEXIST
  else do
    let old ← pathToDentry lw oldPath
    let old ← okOr .ENOENT old
    let d ← dentry old
    let inode ← inodeMeta d.dInode
    if inode.iMode ≠ .Regular then fail .EPERM
    else do
      let parent ← pathToDentry lw (parentPath newPath)
      let parent ← okOr .ENOENT parent
      let p ← dentry parent
      let pinode ← inodeMeta p.dInode
      if pinode.iMode ≠ .Directory then fail .ENOTDIR
      else link lw old parent (dentryName newPath)

/-- The call compares the inodes and the modes of the two parents, not of the entries. -/
def sysRenameat2 (oldPath newPath : Str) : Fs δ Unit := do
  let oldPa ← pathToDentry lw (parentPath oldPath)
  let oldPa ← okOr .ENOENT oldPa
  let newPa ← pathToDentry lw (parentPath newPath)
  let newPa ← okOr .ENOENT newPa
  let o ← dentry oldPa
  let n ← dentry newPa
  if o.dInode = n.dInode then pure ()
  else do
    let oldInode ← inodeMeta o.dInode
    let newInode ← inodeMeta n.dInode
    if oldInode.iMode ≠ newInode.iMode then
      match oldInode.iMode, newInode.iMode with
      | .Regular, .Directory => fail .EISDIR
      | .Directory, .Regular => fail .ENOTDIR
      | _, _ => stop .todo
    else rename lw oldPa (dentryName oldPath) newPa (dentryName newPath)

/-- Nothing is mounted. -/
def Vfs.cold (disk : δ) : Vfs δ :=
  ⟨fun _ => none, 0, fun _ => none, 0, ∅, ∅, disk, []⟩

/-- A disk that keeps the paths of its files, and nothing else of them. -/
abbrev ListDisk := List (Str × InodeTypes)

def removeEntry (path : Str) : EStateM Errno ListDisk Unit := fun disk =>
  if disk.any (·.1 = path) then .ok () (disk.filter (·.1 ≠ path)) else .error .ENOENT disk

def moveEntry (oldPath newPath : Str) : EStateM Errno ListDisk Unit := fun disk =>
  match disk.find? (·.1 = oldPath) with
  | some entry => .ok () ((newPath, entry.2) :: disk.filter (·.1 ≠ oldPath))
  | none => .error .ENOENT disk

def addFile (path : Str) (type : InodeTypes) : EStateM Errno ListDisk Unit := fun disk =>
  if disk.any (·.1 = path) then .error .EEXIST disk else .ok () ((path, type) :: disk)

def namesIn (disk : ListDisk) (path : Str) : List Str :=
  ((disk.filter fun e => parentPath e.1 = path).map fun e => dentryName e.1).filter
    fun name => name ≠ [] ∧ '/' ∉ name ∧ formatPath name = name

def listDisk : Lwext4 ListDisk where
  checkInodeExist disk path type := (path, type) ∈ disk
  fileOpen path create disk :=
    if (path, .regFile) ∈ disk then .ok () disk
    else if create then addFile path .regFile disk
    else .error .ENOENT disk
  dirOpen path disk :=
    if path = ['/'] ∨ (path, .dir) ∈ disk then .ok () disk else .error .ENOENT disk
  dirCreate path := addFile path .dir
  dirEntries disk path := some ((namesIn disk path).dedup.map fun name =>
    (name, if (joinName name path, .dir) ∈ disk then .Directory else .Regular))
  rmfile := removeEntry
  rmdir := removeEntry
  mvfile := moveEntry
  mvdir := moveEntry
  link _ newPath := addFile newPath .regFile
  symlink _ newPath := addFile newPath .symlink

end DuckOs.VfsModel
