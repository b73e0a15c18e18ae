import DuckOs.PipeModel
import DuckOs.VfsModel

/-! The tables of file descriptors, the processes that use them, and the calls that
open, duplicate and close descriptors. Of a process only its table is kept; the memory
that `clone` and `execve` also handle has its own model. -/
namespace DuckOs.FdTables
open PermissionFlags PathModel VfsModel PipeModel
open Ext4FileModel (OpenFlags)

def maxFd : ℕ := 256

inductive PipeStatus where
  | Readable
  | Writable
  deriving DecidableEq

inductive FileRef where
  | stdin
  | stdout
  | stderr
  | opened (id : ℕ)
  | pipe (id : ℕ) (status : PipeStatus)
  deriving DecidableEq

structure FdInfo where
  file : FileRef
  flags : OpenFlags
  deriving DecidableEq

/-- The descriptors in `free` are the set bits of the allocator's bitmap. -/
structure FdTable where
  fdTable : AList fun _ : ℕ => FdInfo
  free : Finset ℕ

abbrev TableM := EStateM Fault FdTable

namespace FdTable

def lookup (t : FdTable) (fd : ℕ) : Option FdInfo := t.fdTable.lookup fd

def initFdtable : FdTable where
  fdTable := ((AList.insert 2 ⟨.stderr, OpenFlags.O_WRONLY⟩ ∅).insert 1
    ⟨.stdout, OpenFlags.O_WRONLY⟩).insert 0 ⟨.stdin, OpenFlags.O_RDONLY⟩
  free := Finset.Ico 3 maxFd

def allocFd : TableM (Option ℕ) := do
  let t ← get
  match (List.range maxFd).find? (· ∈ t.free) with
  | some fd => do
    set { t with free := t.free.erase fd }
    pure (some fd)
  | none => pure none

def allocSpecFd (newFd : ℕ) : TableM Bool := do
  let t ← get
  if maxFd ≤ newFd then throw (.panic .explicit)
  else if newFd ∈ t.free then do
    set { t with free := t.free.erase newFd }
    pure true
  else pure false

def dealloc (fd : ℕ) : TableM Unit := do
  let t ← get
  if maxFd ≤ fd then throw (.panic .explicit)
  else if fd ∈ t.free then throw (.panic .assertion)
  else set { t with free := insert fd t.free }

def insert (fd : ℕ) (info : FdInfo) : TableM Unit :=
  modify fun t => { t with fdTable := t.fdTable.insert fd info }

def insertGetFd (info : FdInfo) : TableM ℕ := do
  match ← allocFd with
  | none => throw (.errno .EBADF)
  | some fd => do
    insert fd info
    pure fd

def insertSpecFd (newFd : ℕ) (info : FdInfo) : TableM Bool :=
  if newFd ≤ maxFd then do
    if ← allocSpecFd newFd then do
      insert newFd info
      pure true
    else pure false
  else throw (.errno .EBADF)

def close (fd : ℕ) : TableM Unit := do
  modify fun t => { t with fdTable := t.fdTable.erase fd }
  dealloc fd

def execFds (t : FdTable) : List ℕ :=
  (t.fdTable.entries.filter fun e => contains e.2.flags OpenFlags.O_CLOEXEC).map Sigma.fst

def closeExec : TableM Unit := do
  let t ← get
  (execFds t).foldlM (fun _ fd => close fd) ()

def copyFd (e : Sigma fun _ : ℕ => FdInfo) : TableM Unit :=
  if e.1 < 3 then pure ()
  else do
    if ← allocSpecFd e.1 then insert e.1 e.2
    else throw (.panic .assertion)

def fromCloneCopy (old : FdTable) : TableM Unit :=
  old.fdTable.entries.foldlM (fun _ e => copyFd e) ()

def get (fd : ℕ) : TableM FdInfo := do
  let t ← MonadState.get
  match t.lookup fd with
  | some info => pure info
  | none => throw (.errno .EBADF)

def dup (oldFd : ℕ) : TableM ℕ := do
  let info ← get oldFd
  insertGetFd ⟨info.file, info.flags &&& ~~~OpenFlags.O_CLOEXEC⟩

end FdTable

def allFlags : OpenFlags := 0x2f1ec3#32

def fromBits (flags : OpenFlags) : Option OpenFlags :=
  if flags &&& ~~~allFlags = 0 then some flags else none

def fromBitsTruncate (flags : OpenFlags) : OpenFlags := flags &&& allFlags

def withCloexec (old flags : OpenFlags) : OpenFlags :=
  if contains flags OpenFlags.O_CLOEXEC then old ||| OpenFlags.O_CLOEXEC
  else old &&& ~~~OpenFlags.O_CLOEXEC

namespace FdTable

def dup3To (newFd : ℕ) (info : FdInfo) (flags : OpenFlags) : TableM Unit := do
  if ← insertSpecFd newFd ⟨info.file, withCloexec info.flags flags⟩ then pure ()
  else do
    close newFd
    if ← insertSpecFd newFd ⟨info.file, flags⟩ then pure ()
    else throw (.panic .assertion)

def dup3 (oldFd newFd : ℕ) (flags : OpenFlags) : TableM ℕ :=
  if oldFd = newFd then throw (.errno .EINVAL)
  else do
    let info ← get oldFd
    match fromBits flags with
    | some flags => do
      dup3To newFd info flags
      pure newFd
    | none => throw (.panic .unwrapNone)

def pipe2 (id : ℕ) (flags : OpenFlags) : TableM (ℕ × ℕ) := do
  let readFd ← insertGetFd ⟨.pipe id .Readable, flags ||| OpenFlags.O_RDONLY⟩
  let writeFd ← insertGetFd ⟨.pipe id .Writable, flags ||| OpenFlags.O_WRONLY⟩
  pure (readFd, writeFd)

end FdTable

section System

variable {δ : Type}

structure FileMeta where
  fDentry : ℕ
  fInode : ℕ
  direntIndex : ℕ
  deriving DecidableEq

structure World (δ : Type) where
  vfs : Vfs δ
  files : ℕ → Option FileMeta
  nextFile : ℕ
  pipes : List PipeRingBuffer
  tables : List FdTable
  /-- the table that each process has -/
  procs : List ℕ

abbrev Sys (δ : Type) := EStateM Fault (World δ)

/-- One process, and nothing open. -/
def World.start (s : Vfs δ) : World δ := ⟨s, fun _ => none, 0, [], [FdTable.initFdtable], [0]⟩

def World.withTable (w : World δ) (ti : ℕ) (t : FdTable) : World δ :=
  { w with tables := w.tables.set ti t }

def onVfs {α : Type} (x : Fs δ α) : Sys δ α := fun w =>
  match x w.vfs with
  | .ok a s => .ok a { w with vfs := s }
  | .error e s => .error e { w with vfs := s }

def orStop {α : Type} : Option α → Sys δ α
  | some a => pure a
  | none => throw (.panic .unwrapNone)

def tableOf (p : ℕ) : Sys δ ℕ := do
  let w ← get
  orStop (w.procs[p]?)

def onTable {α : Type} (p : ℕ) (x : TableM α) : Sys δ α := do
  let ti ← tableOf p
  let w ← get
  let t ← orStop (w.tables[ti]?)
  match x t with
  | .ok a t' => do
    set (w.withTable ti t')
    pure a
  | .error e t' => do
    set (w.withTable ti t')
    throw e

def newFile (file : FileMeta) : Sys δ ℕ :=
  modifyGet fun w => (w.nextFile, { w with
    files := Function.update w.files w.nextFile (some file)
    nextFile := w.nextFile + 1 })

end System

section Syscalls

variable {δ : Type} (lw : Lwext4 δ)

def sysOpen (p : ℕ) (path : Str) (flags : OpenFlags) : Sys δ ℕ := do
  let r ← onVfs (sysOpenat lw path flags)
  let d ← onVfs (dentry r.1)
  let file ← newFile ⟨r.1, d.dInode, 0⟩
  onTable p (FdTable.insertGetFd ⟨.opened file, r.2⟩)

def sysDup (p oldFd : ℕ) : Sys δ ℕ := onTable p (FdTable.dup oldFd)

def sysDup3 (p oldFd newFd : ℕ) (flags : OpenFlags) : Sys δ ℕ :=
  onTable p (FdTable.dup3 oldFd newFd flags)

def sysPipe2 (p : ℕ) (flags : OpenFlags) : Sys δ (ℕ × ℕ) := do
  let w ← get
  set { w with pipes := w.pipes ++ [makePipes] }
  onTable p (FdTable.pipe2 w.pipes.length (fromBitsTruncate flags))

def fileClose (file : FileMeta) : Fs δ Unit := do
  let d ← dentry file.fDentry
  let inode ← inodeMeta file.fInode
  let openCount := wordPred inode.iOpenCount
  modify fun s => s.setInode file.fInode { inode with iOpenCount := openCount }
  if d.kind = .ext4 ∧ inode.iLinkCount = 0 ∧ openCount = 0 then
    if inode.iMode = .Regular then rmfile lw file.fInode d.dPath else stop .assertion
  else pure ()

def closeRef : FileRef → Sys δ Unit
  | .opened id => do
    let w ← get
    let file ← orStop (w.files id)
    onVfs (fileClose lw file)
  | .pipe _ _ => pure ()
  | _ => throw (.panic .todo)

def sysClose (p fd : ℕ) : Sys δ Unit := do
  let info ← onTable p (FdTable.get fd)
  closeRef lw info.file
  onTable p (FdTable.close fd)

def sysClone (p : ℕ) (shareFiles : Bool) : Sys δ Unit := do
  let ti ← tableOf p
  let w ← get
  if shareFiles then set { w with procs := w.procs ++ [ti] }
  else do
    let t ← orStop (w.tables[ti]?)
    match FdTable.fromCloneCopy t FdTable.initFdtable with
    | .ok _ t' => set { w with tables := w.tables ++ [t'], procs := w.procs ++ [w.tables.length] }
    | .error e _ => throw e

/-- The interpreter is the first of the candidates that exists. It is opened, and the file is
dropped at the end of the call. The entry of the program is locked meanwhile. -/
def loadDlInterp (program : ℕ) : List Str → Fs δ Unit
  | [] => pure ()
  | path :: rest => do
    match ← pathToDentry lw path with
    | some found => if found = program then stop .deadlock else openDentry found OpenFlags.O_RDONLY
    | none => loadDlInterp program rest

def sysExecve (p : ℕ) (path : Str) (interps : List Str) : Sys δ Unit :=
  if ['.', 's', 'h'] <:+ path then throw (.panic .todo)
  else do
    let found ← onVfs (pathToDentry lw path)
    let found ← onVfs (okOr .ENOENT found)
    let d ← onVfs (dentry found)
    let inode ← onVfs (inodeMeta d.dInode)
    if inode.iMode ≠ .Regular then throw (.errno .EACCES)
    else do
      onTable p FdTable.closeExec
      onVfs (loadDlInterp lw found interps)

end Syscalls

section Operations

variable {δ : Type}

inductive FileOp where
  | openat (p : ℕ) (path : Str) (flags : OpenFlags)
  | dup (p oldFd : ℕ)
  | dup3 (p oldFd newFd : ℕ) (flags : OpenFlags)
  | clone (p : ℕ) (shareFiles : Bool)
  | close (p fd : ℕ)
  | execve (p : ℕ) (path : Str) (interps : List Str)
  | linkat (oldPath newPath : Str)
  | unlinkat (cwd path : Str) (removeDir : Bool)

def FileOp.exec (lw : Lwext4 δ) : FileOp → Unit → Sys δ Unit
  | .openat p path flags, _ => settled (sysOpen lw p path flags)
  | .dup p oldFd, _ => settled (sysDup p oldFd)
  | .dup3 p oldFd newFd flags, _ => settled (sysDup3 p oldFd newFd flags)
  | .clone p shareFiles, _ => settled (sysClone p shareFiles)
  | .close p fd, _ => settled (sysClose lw p fd)
  | .execve p path interps, _ => settled (sysExecve lw p path interps)
  | .linkat oldPath newPath, _ => settled (onVfs (sysLinkat lw oldPath newPath))
  | .unlinkat cwd path removeDir, _ => settled (onVfs (sysUnlinkat lw cwd path removeDir))

end Operations

end DuckOs.FdTables
