import DuckOs.Ext4FileModel
import DuckOs.MemorySetModel
import DuckOs.StackModel

namespace DuckOs.ElfLoaderModel
open AddressModel PermissionFlags KernelMachine PageTableModel
open PageModel VirtMemoryModel MemorySetModel Ext4FileModel PathModel StackModel
open OrderedMaps (BTreeMap)

/-- The kinds of program headers that the loader tells apart. -/
inductive PhType where
  | load
  | interp
  | other
  deriving DecidableEq, Repr

/-- `phType` is `none` where `get_type` is an error. -/
structure ProgramHeader where
  phType : Option PhType
  virtualAddr : ℕ
  offset : ℕ
  fileSize : ℕ
  memSize : ℕ
  isRead : Bool
  isWrite : Bool
  isExecute : Bool

structure ElfFile where
  input : List UInt8
  magic : List UInt8
  entryPoint : ℕ
  phOffset : ℕ
  phEntrySize : ℕ
  programIter : List ProgramHeader

/-- What the loader takes from the libraries and the file system. -/
structure Loader where
  /-- what `ElfFile::new` makes of the bytes of a file -/
  parse : List UInt8 → Option ElfFile
  /-- `from_utf8` -/
  decode : List UInt8 → Option Str
  /-- the inode of the file that a path leads to -/
  find : Str → Option ℕ

def checkMagic (elf : ElfFile) : Bool := elf.magic == [0x7f, 0x45, 0x4c, 0x46]

/-- `&elf.input[first..last]` -/
def inputSlice (elf : ElfFile) (first last : ℕ) : Kernel (List UInt8) :=
  if first ≤ last ∧ last ≤ elf.input.length then pure ((elf.input.take last).drop first)
  else throw .explicit

def loadPermission (ph : ProgramHeader) : MapPermission :=
  MapPermission.U ||| (if ph.isRead then MapPermission.R else 0) |||
    (if ph.isWrite then MapPermission.W else 0) ||| (if ph.isExecute then MapPermission.X else 0)

def findPage (cache fileOffset : ℕ) : Kernel (Option Page) := do
  let m ← get
  match (m.pageCaches cache)[PageCache.toOffset fileOffset]? with
  | some page => some <$> arcClone page
  | none => pure none

/-- Pages of the file that are in its cache are mapped as they are, others anew. -/
def mapCachedPage (cache : ℕ) (s : (VirtMemoryAddr × PageTable) × ℕ) (vpn : ℕ) :
    Kernel ((VirtMemoryAddr × PageTable) × ℕ) := do
  let page ← findPage cache s.2
  let r ← s.1.1.mapOne s.1.2 vpn page
  pure ((r.1, r.2.1), wrappingAdd s.2 pageSize)

def mapCached (vm : MemorySet) (vma : VirtMemoryAddr) (cache fileOffset : ℕ) :
    Kernel MemorySet := do
  let range ← vma.vmaRange
  let r ← (List.range' range.1 (range.2 - range.1)).foldlM (mapCachedPage cache)
    ((vma, vm.pt), fileOffset)
  { vm with pt := r.1.2 }.pushNoMap r.1.1

/-- Only what cannot be written is taken from the cache of an open file. -/
def mapSegment (elf : ElfFile) (vm : MemorySet) (ph : ProgramHeader) (startVa endVa : ℕ)
    (cache : Option ℕ) : Kernel MemorySet := do
  let vma ← VirtMemoryAddr.new startVa endVa (loadPermission ph) .framed .elf none
  match cache.filter fun _ => !contains (loadPermission ph) MapPermission.W with
  | some cache => mapCached vm vma cache ph.offset
  | none => do
    let data ← inputSlice elf ph.offset (wrappingAdd ph.offset ph.fileSize)
    let offset ← vaddrOffset startVa
    vm.push vma (some data) offset

/-- One header; the number is the end of the highest segment so far. -/
def mapHeader (elf : ElfFile) (cache : Option ℕ) (baseAddr : ℕ) (s : MemorySet × ℕ)
    (ph : ProgramHeader) : Kernel (MemorySet × ℕ) := do
  let phType ← unwrap .unwrapNone ph.phType
  if phType ≠ .load then pure s
  else do
    let startVa := wrappingAdd ph.virtualAddr baseAddr
    let endVa := wrappingAdd startVa ph.memSize
    let vm ← mapSegment elf s.1 ph startVa endVa cache
    let segEnd ← alignUp endVa
    pure (vm, max s.2 segEnd)

def mapElfAt (elf : ElfFile) (cache : Option ℕ) (vm : MemorySet) (baseAddr : ℕ) :
    Kernel (MemorySet × ℕ) :=
  elf.programIter.foldlM (mapHeader elf cache baseAddr) (vm, 0)

/-- The stack is mapped at once. -/
def mapStack (vm : MemorySet) : Kernel MemorySet := do
  let vma ← VirtMemoryAddr.new (userStackTop - userStackSize) userStackTop
    (MapPermission.U ||| MapPermission.R ||| MapPermission.W) .framed .userStack (some .uStack)
  vm.push vma none 0

/-- The heap starts empty behind the program, and the break with it. -/
def mapHeap (vm : MemorySet) (heapStart : ℕ) : Kernel MemorySet := do
  let heapEnd := heapStart
  let vma ← VirtMemoryAddr.new heapStart heapEnd
    (MapPermission.U ||| MapPermission.R ||| MapPermission.W) .framed .userHeap (some .uHeap)
  let vm ← vm.push vma none 0
  pure { vm with heapEnd := heapEnd }

section Interpreter

variable (ld : Loader)

def interpPath (elf : ElfFile) : Kernel (Option Str) :=
  match elf.programIter.find? fun ph => ph.phType = some .interp with
  | none => pure none
  | some ph => do
    let raw ← inputSlice elf ph.offset (wrappingAdd ph.offset ph.fileSize)
    let path ← unwrap .unwrapNone (ld.decode raw)
    pure (some (path.rdropWhile (· = '\x00')))

def interpCandidates (path : Str) : List Str :=
  if path = "/lib/ld-musl-riscv64.so.1".toList ∨ path = "/lib/ld-musl-riscv64-sf.so.1".toList then
    [path, "/libc.so".toList, "/lib/libc.so".toList]
  else [path]

/-- `buf` grows by a page each round, but every page is read to its start. -/
def readAllLoop (cache inode : ℕ) : ℕ → ℕ → List UInt8 → Kernel (List UInt8)
  | 0, _, buf => pure buf
  | fuel + 1, filePos, buf => do
    let fileSize ← iSize inode
    if fileSize ≤ filePos then pure buf
    else do
      let page ← Ext4MemFile.pageFor cache inode filePos
      let buf := buf ++ List.replicate pageSize 0
      let bytes ← Page.read page 0 buf.length
      arcDrop page
      readAllLoop cache inode fuel (wrappingAdd filePos pageSize) (bytes ++ buf.drop bytes.length)

/-- A round moves on by a page, so these are enough. -/
def readAll (cache inode : ℕ) : Kernel (List UInt8) := do
  let fileSize ← iSize inode
  readAllLoop cache inode (fileSize / pageSize + 2) 0 []

/-- The interpreter that the program names. Its file is open under the page cache `cache`. -/
def openInterp (cache : ℕ) (elf : ElfFile) : Kernel (Option ElfFile) := do
  match ← interpPath ld elf with
  | none => pure none
  | some path =>
    match (interpCandidates path).findSome? ld.find with
    | none => pure none
    | some inode => do
      modify fun m => { m with pageCaches := Function.update m.pageCaches cache ∅ }
      let data ← readAll cache inode
      match ld.parse data with
      | none => do
        dropCache cache
        pure none
      | some interp => pure (some interp)

/-- The entry point and the base of the interpreter. The file is closed when its segments are
mapped. -/
def loadDlInterp (cache : ℕ) (elf : ElfFile) (vm : MemorySet) :
    Kernel (MemorySet × Option (ℕ × ℕ)) := do
  match ← openInterp ld cache elf with
  | none => pure (vm, none)
  | some interp => do
    let r ← mapElfAt interp (some cache) vm dlInterpOffset
    dropCache cache
    pure (r.1, some (wrappingAdd interp.entryPoint dlInterpOffset, dlInterpOffset))

end Interpreter

/-- Where the first loaded segment asks to be. -/
def elfHeadAddr (elf : ElfFile) : ℕ :=
  ((elf.programIter.find? fun ph => ph.phType = some .load).map (·.virtualAddr)).getD 0

def initAuxv (elf : ElfFile) : List (ℕ × ℕ) :=
  [(1, 0), (3, wrappingAdd (elfHeadAddr elf) elf.phOffset), (4, elf.phEntrySize),
    (5, elf.programIter.length), (6, pageSize), (8, 0), (9, elf.entryPoint), (11, 0), (13, 0),
    (14, 0), (16, 0), (17, 100), (23, 0)]

/-- The auxiliary entries before `build_stack` adds its own; the last is `AT_BASE`. -/
def stackInfo (elf : ElfFile) (dl : Option (ℕ × ℕ)) (args envs : List Str) : StackInfo :=
  ⟨initAuxv elf ++ [(7, (dl.map Prod.snd).getD 0)], args, envs⟩

/-- The entry point, the top of the stack and what goes onto it. -/
def loadElf (ld : Loader) (cache : ℕ) (data : List UInt8) (vm : MemorySet) (args envs : List Str) :
    Kernel (MemorySet × ℕ × ℕ × StackInfo) := do
  let elf ← unwrap .unwrapNone (ld.parse data)
  if !checkMagic elf then throw .explicit
  else do
    let dl ← loadDlInterp ld cache elf vm
    let mapped ← mapElfAt elf none dl.1 0
    let vm ← mapStack mapped.1
    let vm ← mapHeap vm mapped.2
    pure (vm, (dl.2.map Prod.fst).getD elf.entryPoint, userStackTop, stackInfo elf dl.2 args envs)

end DuckOs.ElfLoaderModel
