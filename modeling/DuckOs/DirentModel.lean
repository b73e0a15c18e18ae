import DuckOs.FdTables

namespace DuckOs.DirentModel
open PathModel VfsModel FdTables

structure Dirent64 where
  dIno : ℕ
  dOff : ℕ
  dReclen : ℕ
  dType : UInt8
  deriving DecidableEq

def loadDirent64 (ino : ℕ) (mode : UInt8) (len : ℕ) : Dirent64 := ⟨ino, 0, len, mode⟩

/-- The fields without the padding behind them. -/
def direntSize : ℕ := 19

/-- The constants as their shifts come out: `+` binds tighter than `<<`. -/
def direntType : InodeMode → UInt8
  | .Block => 16
  | .Char => 2
  | .Link => 32
  | .Regular => 8
  | .Directory => 4
  | .FIFO => 1
  | .Socket => 64
  | .UNKNOWN => 0

structure Record where
  head : Dirent64
  name : Str
  deriving DecidableEq

def recordSize (name : Str) : ℕ := direntSize + (asBytes name).length + 1

section Listing

variable {δ : Type}

/-- The children in the order of the map. The strings of the source are ordered by their bytes,
which is the order by characters. -/
def children (d : Dentry) : List (Str × ℕ) :=
  (d.dChild.entries.map fun e => (e.1, e.2)).insertionSort fun a b => a.1 ≤ b.1

/-- What a call has written so far, and the index it leaves. -/
structure Listing where
  records : List Record
  bufOff : ℕ
  direntIndex : ℕ

/-- The loop over the children and their indices. -/
def listChildren (count start : ℕ) : List ((Str × ℕ) × ℕ) → Listing → Fs δ Listing
  | [], r => pure r
  | ((name, child), idx) :: rest, r =>
    if idx < start then listChildren count start rest r
    else do
      let c ← dentry child
      let inode ← inodeMeta c.dInode
      let size := recordSize name
      if count < r.bufOff + size then pure r
      else
        listChildren count start rest
          ⟨r.records ++ [⟨loadDirent64 c.dInode (direntType inode.iMode) (size % 2 ^ 16), name⟩],
            r.bufOff + size, idx + 1⟩

def getdents (file : FileMeta) (count : ℕ) : Fs δ Listing := do
  let d ← dentry file.fDentry
  let inode ← inodeMeta d.dInode
  if inode.iMode ≠ .Directory then fail .ENOTDIR
  else listChildren count file.direntIndex (children d).zipIdx ⟨[], 0, file.direntIndex⟩

/-- Only an open file of a directory has an entry to list. -/
def sysGetdents64 (p fd count : ℕ) : Sys δ Listing := do
  let info ← onTable p (FdTable.get fd)
  match info.file with
  | .opened id => do
    let w ← get
    let file ← orStop (w.files id)
    let r ← onVfs (getdents file count)
    modify fun w => { w with
      files := Function.update w.files id (some { file with direntIndex := r.direntIndex }) }
    pure r
  | .pipe _ _ => throw (.panic .unwrapNone)
  | _ => throw (.panic .todo)

end Listing

end DuckOs.DirentModel
