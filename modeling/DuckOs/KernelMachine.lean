import DuckOs.LittleEndianWords
import DuckOs.OrderedMaps
import DuckOs.PermissionFlags

/-! The machine state the memory manager works on: physical frames as rows of
bytes, the frame allocator, the strong counts of the shared pages, and the page
caches of the open files. -/
namespace DuckOs.KernelMachine
open AddressModel PermissionFlags
open OrderedMaps (BTreeMap)

structure FrameAllocator where
  free : List ℕ
  ordered : free.Pairwise (· ≤ ·)
  nodup : free.Nodup

/-- The lowest set bit is cleared and returned. -/
def FrameAllocator.alloc (a : FrameAllocator) : Option (ℕ × FrameAllocator) :=
  match a with
  | ⟨[], _, _⟩ => none
  | ⟨ppn :: rest, ho, hn⟩ => some (ppn, ⟨rest, ho.of_cons, hn.of_cons⟩)

def FrameAllocator.dealloc (a : FrameAllocator) (ppn : ℕ) : Option FrameAllocator :=
  if h : ppn ∈ a.free then none
  else some ⟨a.free.orderedInsert (· ≤ ·) ppn, a.ordered.orderedInsert ppn,
    (a.free.perm_orderedInsert (· ≤ ·) ppn).nodup_iff.mpr (List.nodup_cons.mpr ⟨h, a.nodup⟩)⟩

inductive DataState where
  | empty
  | sync
  | dirty
  deriving DecidableEq, Repr

structure DiskFileInfo where
  inode : ℕ
  pageNumOffset : ℕ
  deriving DecidableEq, Repr

/-- A page is identified by its frame: it owns exactly one. -/
structure Page where
  ppn : ℕ
  permission : PagePermission
  diskFile : Option DiskFileInfo
  deriving DecidableEq, Repr

/-- What the file system below provides: `read offset len` gives the bytes read, or an error. -/
structure Inode where
  size : ℕ
  read : ℕ → ℕ → Option (List UInt8)

structure PageTable where
  rootPaddr : ℕ
  frames : List ℕ
  deriving DecidableEq, Repr

structure Machine where
  ram : ℕ → ℕ → UInt8
  frameAllocator : FrameAllocator
  /-- strong count of the shared page in each frame -/
  strong : ℕ → ℕ
  /-- state of each sector of a disk page -/
  dataState : ℕ → ℕ → DataState
  pageCaches : ℕ → BTreeMap Page
  inodes : ℕ → Option Inode
  kernelSpace : Option PageTable
  satp : ℕ

abbrev Kernel := EStateM Panic Machine

def unwrap {α : Type} (reason : Panic) : Option α → Kernel α
  | some a => pure a
  | none => throw reason

def pteArray (paddr : ℕ) : Kernel ℕ := do
  assertThat (checkPaddr paddr)
  pure (paddr >>> pageSizeBits)

def byteArray (paddr : ℕ) : Kernel ℕ := pteArray paddr

def setRow (m : Machine) (f : ℕ) (row : ℕ → UInt8) : Machine :=
  { m with ram := Function.update m.ram f row }

def fillZero (f : ℕ) : Kernel Unit := modify fun m => setRow m f fun _ => 0

def copyFrame (dst src : ℕ) : Kernel Unit := modify fun m => setRow m dst (m.ram src)

namespace FrameTracker

/-- A new tracker clears its frame. -/
def new (ppn : ℕ) : Kernel ℕ := do
  let f ← byteArray (ppnToPhys ppn)
  fillZero f
  pure ppn

end FrameTracker

def allocFrame : Kernel (Option ℕ) := do
  let m ← get
  match m.frameAllocator.alloc with
  | none => pure none
  | some (ppn, rest) =>
    set { m with frameAllocator := rest }
    some <$> FrameTracker.new ppn

def deallocFrame (ppn : ℕ) : Kernel Unit := do
  let m ← get
  match m.frameAllocator.dealloc ppn with
  | none => throw .assertion
  | some rest => set { m with frameAllocator := rest }

def allocFrameUnwrap : Kernel ℕ := do
  let frame ← allocFrame
  unwrap .outOfFrames frame

/-- All of `n` frames are free. -/
def FrameAllocator.init (first n : ℕ) : FrameAllocator :=
  ⟨List.range' first n, (List.pairwise_lt_range' 1 Nat.one_pos).imp Nat.le_of_lt,
    List.nodup_range' 1 Nat.one_pos⟩

/-- A machine on which nothing has been set up. -/
def coldMachine (first n : ℕ) : Machine where
  ram := fun _ _ => 0
  frameAllocator := FrameAllocator.init first n
  strong := fun _ => 0
  dataState := fun _ _ => .empty
  pageCaches := fun _ => ∅
  inodes := fun _ => none
  kernelSpace := none
  satp := 0

end DuckOs.KernelMachine
