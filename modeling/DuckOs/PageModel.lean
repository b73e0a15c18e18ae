import DuckOs.PageTableModel

namespace DuckOs.PageModel
open AddressModel PermissionFlags KernelMachine Function
open OrderedMaps (BTreeMap)

def sectorSize : ℕ := 512
def dataSize : ℕ := pageSize / sectorSize

def arcNew (page : Page) : Kernel Page := do
  modify fun m => { m with strong := update m.strong page.ppn 1 }
  pure page

def arcClone (page : Page) : Kernel Page := do
  modify fun m => { m with strong := update m.strong page.ppn (m.strong page.ppn + 1) }
  pure page

def arcDrop (page : Page) : Kernel Unit := do
  let m ← get
  set { m with strong := update m.strong page.ppn (m.strong page.ppn - 1) }
  if m.strong page.ppn ≤ 1 then deallocFrame page.ppn else pure ()

/-- A map of pages goes out of scope. -/
def dropPages (pages : BTreeMap Page) : Kernel Unit :=
  pages.toList.foldlM (fun _ entry => arcDrop entry.2) ()

/-- `copy_from_slice` into `row[offset..offset + data.len()]`. -/
def writeBytes (row : ℕ → UInt8) (offset : ℕ) (data : List UInt8) : ℕ → UInt8 :=
  fun i => if offset ≤ i ∧ i < offset + data.length then data.getD (i - offset) 0 else row i

def writeFrame (f offset : ℕ) (data : List UInt8) : Kernel Unit :=
  modify fun m => setRow m f (writeBytes (m.ram f) offset data)

namespace Page

def new (per : PagePermission) : Kernel Page := do
  let frame ← allocFrameUnwrap
  pure ⟨frame, per, none⟩

def newDiskPage (per : PagePermission) (inode pageNumOffset : ℕ) : Kernel Page := do
  let frame ← allocFrameUnwrap
  modify fun m => { m with dataState := update m.dataState frame fun _ => .empty }
  pure ⟨frame, per, some ⟨inode, pageNumOffset⟩⟩

def newFromPage (ppn : ℕ) (permission : PagePermission) : Kernel Page := do
  let frame ← allocFrameUnwrap
  let dst ← byteArray (ppnToPhys frame)
  let src ← byteArray (ppnToPhys ppn)
  copyFrame dst src
  pure ⟨frame, permission, none⟩

def toSecIdx (pageOffset : ℕ) : ℕ := pageOffset / sectorSize

/-- `+` binds tighter than `>>`, and the release build masks the shift amount. -/
def sectorFileOffset (pageNumOffset idx : ℕ) : ℕ :=
  pageNumOffset >>> ((pageSizeBits + idx * sectorSize) % 64)

/-- One sector is read from the disk into its place in the page. -/
def readSector (self : Page) (info : DiskFileInfo) (idx : ℕ) (state : DataState) :
    Kernel Unit := do
  let m ← get
  let inode ← unwrap .unwrapNone (m.inodes info.inode)
  let f ← byteArray (ppnToPhys self.ppn)
  let bytes ← unwrap .explicit (inode.read (sectorFileOffset info.pageNumOffset idx) sectorSize)
  writeFrame f (idx * sectorSize) (bytes.take sectorSize)
  modify fun m => { m with
    dataState := update m.dataState self.ppn
      (update (m.dataState self.ppn) idx state) }

def loadSector (self : Page) (info : DiskFileInfo) (idx : ℕ) : Kernel Unit := do
  let m ← get
  match m.dataState self.ppn idx with
  | .empty => readSector self info idx .sync
  | _ => pure ()

/-- Only a page of a disk file can be loaded. -/
def load (self : Page) : Kernel Unit :=
  match self.diskFile with
  | none => throw .todo
  | some info => (List.range dataSize).foldlM (fun _ idx => loadSector self info idx) ()

def writeSector (self : Page) (info : DiskFileInfo) (idx : ℕ) : Kernel Unit := do
  let m ← get
  match m.dataState self.ppn idx with
  | .empty => readSector self info idx .dirty
  | .sync => modify fun m => { m with
      dataState := update m.dataState self.ppn
        (update (m.dataState self.ppn) idx .dirty) }
  | .dirty => pure ()

/-- One past the last sector of `len` bytes from an offset. -/
def sectorEnd (pageOffset len : ℕ) : ℕ :=
  toSecIdx (wrappingAdd (pageOffset + len + (wordSize - 1)) sectorSize)

/-- The sectors of a disk page that a read touches are read in first. -/
def readSectors (self : Page) (pageOffset len : ℕ) : Kernel Unit :=
  match self.diskFile with
  | none => pure ()
  | some info =>
    let first := toSecIdx pageOffset
    (List.range' first (sectorEnd pageOffset len - first)).foldlM
      (fun _ idx => loadSector self info idx) ()

/-- The bytes that a buffer of length `bufLen` receives. -/
def read (self : Page) (pageOffset bufLen : ℕ) : Kernel (List UInt8) := do
  assertThat (decide (pageOffset < pageSize))
  let len := min bufLen (pageSize - pageOffset)
  readSectors self pageOffset len
  let f ← byteArray (ppnToPhys self.ppn)
  let m ← get
  pure ((List.range len).map fun i => m.ram f (pageOffset + i))

/-- The sectors of a disk page that a write touches are read in first. -/
def writeSectors (self : Page) (pageOffset len : ℕ) : Kernel Unit :=
  match self.diskFile with
  | none => pure ()
  | some info =>
    let first := toSecIdx pageOffset
    let last := toSecIdx (wrappingAdd (pageOffset + len + (wordSize - 1)) sectorSize)
    (List.range' first (last - first)).foldlM (fun _ idx => writeSector self info idx) ()

def write (self : Page) (pageOffset : ℕ) (buf : List UInt8) : Kernel Unit := do
  assertThat (decide (pageOffset < pageSize))
  let len := min buf.length (pageSize - pageOffset)
  writeSectors self pageOffset len
  let f ← byteArray (ppnToPhys self.ppn)
  writeFrame f pageOffset (buf.take len)

end Page

/-- What a mapping needs to know of an open file. -/
structure FileMeta where
  pageCache : Option ℕ
  inode : ℕ
  deriving DecidableEq, Repr

/-- A file that keeps the default `metadata` reaches a `todo!`. -/
structure File where
  metadata : Option FileMeta
  deriving DecidableEq, Repr

namespace PageCache

def toOffset (fileOffset : ℕ) : ℕ := fileOffset >>> pageSizeBits

def findPageFromDisk (cache pageNumOffset inode : ℕ) : Kernel (Option Page) := do
  let page ← Page.newDiskPage PagePermission.all inode pageNumOffset
  let page ← arcNew page
  let shared ← arcClone page
  modify fun m => { m with
    pageCaches := update m.pageCaches cache
      ((m.pageCaches cache).insert pageNumOffset shared) }
  pure (some page)

def findPageAndCreate (cache fileOffset : ℕ) (inode : Option ℕ) : Kernel (Option Page) := do
  let m ← get
  match (m.pageCaches cache)[toOffset fileOffset]? with
  | some page => some <$> arcClone page
  | none =>
    match inode with
    | some inode => findPageFromDisk cache (toOffset fileOffset) inode
    | none => pure none

end PageCache

structure BackenFile where
  offset : ℕ
  file : File
  deriving DecidableEq, Repr

structure PhysMemoryAddr where
  pageManager : BTreeMap Page
  backenFile : Option BackenFile

namespace PhysMemoryAddr

def new : PhysMemoryAddr := ⟨∅, none⟩

def popPmaPage (self : PhysMemoryAddr) (vpn : ℕ) : Kernel PhysMemoryAddr :=
  match self.pageManager[vpn]? with
  | none => pure self
  | some page => do
    arcDrop page
    pure { self with pageManager := self.pageManager.erase vpn }

def dropReplaced : Option Page → Kernel Unit
  | none => pure ()
  | some old => arcDrop old

/-- A page that was already there is dropped by the insertion. -/
def pushPmaPage (self : PhysMemoryAddr) (vpn : ℕ) (page : Page) : Kernel PhysMemoryAddr := do
  dropReplaced self.pageManager[vpn]?
  pure { self with pageManager := self.pageManager.insert vpn page }

def addBackenFile (self : PhysMemoryAddr) (file : BackenFile) : PhysMemoryAddr :=
  { self with backenFile := some file }

/-- Moves one page from the left map to the right one; it must be there. -/
def movePage (maps : BTreeMap Page × BTreeMap Page) (vpn : ℕ) :
    Kernel (BTreeMap Page × BTreeMap Page) := do
  let page ← unwrap .unwrapNone maps.1[vpn]?
  pure (maps.1.erase vpn, maps.2.insert vpn page)

/-- What stays, and the pages right of `rightStart`, which lose the backing file. -/
def split (self : PhysMemoryAddr) (leftEnd rightStart limit : ℕ) :
    Kernel (PhysMemoryAddr × PhysMemoryAddr) := do
  let first ← virtToVpn rightStart
  let last ← virtToVpn limit
  let maps ← (List.range' first (last - first)).foldlM movePage (self.pageManager, ∅)
  let left := { self with pageManager := maps.1 }
  let gapFirst ← virtToVpn leftEnd
  let gapLast ← virtToVpn rightStart
  let left ← (List.range' gapFirst (gapLast - gapFirst)).foldlM popPmaPage left
  pure (left, ⟨maps.2, none⟩)

def writeDataToPage (self : PhysMemoryAddr) (vpn : ℕ) (data : List UInt8) (offset : ℕ) :
    Kernel Unit := do
  assertThat (decide (data.length + offset ≤ pageSize))
  let page ← unwrap .unwrapNone self.pageManager[vpn]?
  Page.write page offset data

/-- The bytes that a buffer of length `len` receives. -/
def readDataFromPage (self : PhysMemoryAddr) (vpn len offset : ℕ) : Kernel (List UInt8) := do
  assertThat (decide (len + offset ≤ pageSize))
  let page ← unwrap .unwrapNone self.pageManager[vpn]?
  Page.read page offset len

end PhysMemoryAddr

end DuckOs.PageModel
