import DuckOs.PageModel

namespace DuckOs.VirtMemoryModel
open AddressModel PermissionFlags KernelMachine PageTableModel PageModel
open OrderedMaps (BTreeMap)

inductive VmaType where
  | elf
  | userStack
  | mmap
  | userHeap
  | physFrame
  | mmio
  | interp
  deriving DecidableEq, Repr

inductive MapType where
  | framed
  | direct
  deriving DecidableEq, Repr

/-- The implementations of the page-fault trait. -/
inductive PageFaultHandler where
  | uStack
  | uHeap
  | mmap
  | cow
  deriving DecidableEq, Repr

inductive Errno where
  | EPERM
  | ENOENT
  | EIO
  | EBADF
  | ENOMEM
  | EACCES
  | EFAULT
  | EBUSY
  | EEXIST
  | ENOTDIR
  | EISDIR
  | EINVAL
  | ENOSPC
  | ENOTEMPTY
  deriving DecidableEq, Repr

structure VirtMemoryAddr where
  pma : PhysMemoryAddr
  startVaddr : ℕ
  endVaddr : ℕ
  mapPermission : MapPermission
  vmaType : VmaType
  mapType : MapType
  pageFaultHandler : Option PageFaultHandler

/-- A segment goes out of scope with the pages it still holds. -/
def dropVma (vma : VirtMemoryAddr) : Kernel Unit := dropPages vma.pma.pageManager

inductive UnmapOverlap where
  | unchange
  | shrink
  | removed
  | split (rightVma : VirtMemoryAddr)

inductive SplitOverlap where
  | unchange
  | shrinkRight (rightVma : VirtMemoryAddr)
  | shrinkLeft (rightVma : VirtMemoryAddr)
  | modified
  | split (middleVma rightVma : VirtMemoryAddr)

namespace VirtMemoryAddr

def new (startVaddr endVaddr : ℕ) (mapPermission : MapPermission) (mapType : MapType)
    (vmaType : VmaType) (handler : Option PageFaultHandler) : Kernel VirtMemoryAddr := do
  let first ← alignDown startVaddr
  let last ← alignUp endVaddr
  pure ⟨PhysMemoryAddr.new, first, last, mapPermission, vmaType, mapType, handler⟩

/-- The pages and the backing file are not taken over. -/
def fromAnother (another : VirtMemoryAddr) : VirtMemoryAddr :=
  { another with pma := PhysMemoryAddr.new }

/-- The first page number and the one past the last. -/
def vmaRange (self : VirtMemoryAddr) : Kernel (ℕ × ℕ) := do
  let startVpn ← virtToVpn self.startVaddr
  let endVpn ← virtToVpn self.endVaddr
  pure (startVpn, endVpn)

/-- The page to map: the one given, or a new one. -/
def dataPage (self : VirtMemoryAddr) : Option Page → Kernel Page
  | some p => pure p
  | none => Page.new (pagePermissionFrom self.mapPermission) >>= arcNew

def mapOne (self : VirtMemoryAddr) (pt : PageTable) (vpn : ℕ) (page : Option Page) :
    Kernel (VirtMemoryAddr × PageTable × ℕ) :=
  match self.mapType with
  | .direct => do
    assertThat (decide (phyToVirtPpnOffset ≤ vpn))
    let ppn := vpn - phyToVirtPpnOffset
    let pt ← PageTable.mapOne pt vpn ppn (pteFlagsFrom self.mapPermission)
    pure (self, pt, ppn)
  | .framed => do
    let dataPage ← self.dataPage page
    let pma ← self.pma.pushPmaPage vpn dataPage
    let pt ← PageTable.mapOne pt vpn dataPage.ppn (pteFlagsFrom self.mapPermission)
    pure ({ self with pma := pma }, pt, dataPage.ppn)

def popFramed (self : VirtMemoryAddr) (vpn : ℕ) : Kernel PhysMemoryAddr :=
  match self.mapType with
  | .framed => self.pma.popPmaPage vpn
  | .direct => pure self.pma

def unmap (self : VirtMemoryAddr) (pt : PageTable) (vpn : ℕ) : Kernel VirtMemoryAddr := do
  let pma ← self.popFramed vpn
  PageTable.unmap pt vpn
  pure { self with pma := pma }

def mapSelfAll (self : VirtMemoryAddr) (pt : PageTable) : Kernel (VirtMemoryAddr × PageTable) := do
  let range ← self.vmaRange
  (List.range' range.1 (range.2 - range.1)).foldlM (fun s vpn => do
    let r ← mapOne s.1 s.2 vpn none
    pure (r.1, r.2.1)) (self, pt)

/-- `&data[start..stop]`. -/
def sliceOf (data : List UInt8) (start stop : ℕ) : Kernel (List UInt8) :=
  if start ≤ stop ∧ stop ≤ data.length then pure ((data.take stop).drop start) else throw .explicit

/-- One round writes up to the end of a page; the data are at most `fuel` pages long. -/
def writeDataLoop (self : VirtMemoryAddr) (data : List UInt8) :
    ℕ → ℕ → ℕ → ℕ → Kernel Unit
  | 0, _, _, _ => pure ()
  | fuel + 1, start, offset, currentVa => do
    let stop := min data.length (start + pageSize - offset)
    let vpn ← virtToVpn currentVa
    let chunk ← sliceOf data start stop
    self.pma.writeDataToPage vpn chunk offset
    let start := start + (pageSize - offset)
    if data.length ≤ start then pure ()
    else writeDataLoop self data fuel start 0 (wrappingAdd currentVa pageSize)

/-- `offset` is an offset in a page, so each round but the first moves on by a page. -/
def writeDataToPage (self : VirtMemoryAddr) (startVa : ℕ) (data : List UInt8) (offset : ℕ) :
    Kernel Unit :=
  writeDataLoop self data (data.length + 2) 0 offset startVa

def readDataLoop (self : VirtMemoryAddr) : ℕ → List UInt8 → ℕ → ℕ → ℕ → Kernel (List UInt8)
  | 0, data, _, _, _ => pure data
  | fuel + 1, data, start, offset, currentVa => do
    let stop := min data.length (start + pageSize - offset)
    let vpn ← virtToVpn currentVa
    let chunk ← sliceOf data start stop
    let bytes ← self.pma.readDataFromPage vpn chunk.length offset
    let data := data.take start ++ bytes ++ data.drop (start + bytes.length)
    let start := start + (pageSize - offset)
    if data.length ≤ start then pure data
    else readDataLoop self fuel data start 0 (wrappingAdd currentVa pageSize)

/-- The buffer as it is filled. -/
def readDataFromPage (self : VirtMemoryAddr) (startVa : ℕ) (data : List UInt8) (offset : ℕ) :
    Kernel (List UInt8) :=
  readDataLoop self (data.length + 2) data 0 offset startVa

def modify (self : VirtMemoryAddr) (newFlags : MapPermission) (pt : PageTable) :
    Kernel VirtMemoryAddr := do
  self.pma.pageManager.toList.foldlM
    (fun _ entry => PageTable.modifyFlags pt entry.1 (pteFlagsFrom newFlags)) ()
  pure { self with mapPermission := newFlags }

def remove (self : VirtMemoryAddr) (pt : PageTable) : Kernel VirtMemoryAddr := do
  let first ← virtToVpn self.startVaddr
  let last ← virtToVpn self.endVaddr
  (List.range' first (last - first)).foldlM (fun s vpn => unmap s pt vpn) self

def expand (self : VirtMemoryAddr) (newEnd : ℕ) : VirtMemoryAddr := { self with endVaddr := newEnd }

/-- `[start, pos)` stays and `[pos, end)` is returned. -/
def split (self : VirtMemoryAddr) (pos : ℕ) : Kernel (VirtMemoryAddr × VirtMemoryAddr) := do
  let pmas ← self.pma.split pos pos self.endVaddr
  pure ({ self with pma := pmas.1, endVaddr := pos },
    { self with pma := pmas.2, startVaddr := pos })

/-- The end itself counts as contained. -/
def isContain (self : VirtMemoryAddr) (pos : ℕ) : Bool :=
  decide (self.startVaddr ≤ pos) && decide (pos ≤ self.endVaddr)

def isOverlap (self : VirtMemoryAddr) (first last : ℕ) : Kernel Bool := do
  assertThat (decide (first ≤ last))
  pure !(decide (last ≤ self.startVaddr) || decide (self.endVaddr ≤ first))

def unmapIfOverlap (self : VirtMemoryAddr) (first last : ℕ) (pt : PageTable) :
    Kernel (VirtMemoryAddr × UnmapOverlap) := do
  let first ← alignDown first
  let last ← alignUp last
  let overlap ← self.isOverlap first last
  if !overlap then pure (self, .unchange)
  else if first ≤ self.startVaddr then
    if last < self.endVaddr then do
      let parts ← self.split last
      let left ← parts.1.remove pt
      dropVma left
      pure (parts.2, .shrink)
    else do
      let self ← self.remove pt
      pure (self, .removed)
  else if last < self.endVaddr then do
    let parts ← self.split last
    let inner ← parts.1.split first
    let gone ← inner.2.remove pt
    dropVma gone
    pure (inner.1, .split parts.2)
  else do
    let parts ← self.split first
    let gone ← parts.2.remove pt
    dropVma gone
    pure (parts.1, .shrink)

def splitAndModifyIfOverlap (self : VirtMemoryAddr) (first last : ℕ) (newFlags : MapPermission)
    (pt : PageTable) : Kernel (VirtMemoryAddr × SplitOverlap) := do
  let overlap ← self.isOverlap first last
  if !overlap then pure (self, .unchange)
  else if first ≤ self.startVaddr then
    if last < self.endVaddr then do
      let parts ← self.split last
      let left ← parts.1.modify newFlags pt
      pure (left, .shrinkLeft parts.2)
    else do
      let self ← self.modify newFlags pt
      pure (self, .modified)
  else if last < self.endVaddr then do
    let parts ← self.split last
    let inner ← parts.1.split first
    let middle ← inner.2.modify newFlags pt
    pure (inner.1, .split middle parts.2)
  else do
    let parts ← self.split first
    let right ← parts.2.modify newFlags pt
    pure (parts.1, .shrinkRight right)

end VirtMemoryAddr

abbrev VmaRange := BTreeMap VirtMemoryAddr

namespace VmaRange

def dropReplaced : Option VirtMemoryAddr → Kernel Unit
  | none => pure ()
  | some old => dropVma old

/-- `BTreeMap::insert`: a segment under the same key is dropped. -/
def insertSegment (self : VmaRange) (key : ℕ) (vma : VirtMemoryAddr) : Kernel VmaRange := do
  dropReplaced self[key]?
  pure (self.insert key vma)

def insertRaw (self : VmaRange) (vma : VirtMemoryAddr) : Kernel VmaRange :=
  insertSegment self vma.startVaddr vma

/-- The keys of the segments that overlap the range, in key order. -/
def overlapping (self : VmaRange) (first last : ℕ) : Kernel (List ℕ) :=
  self.toList.foldlM (fun idx entry => do
    let overlap ← entry.2.isOverlap first last
    pure (if overlap then idx ++ [entry.1] else idx)) []

def unmapAt (first last : ℕ) (pt : PageTable) (self : VmaRange) (i : ℕ) : Kernel VmaRange :=
  match self[i]? with
  | none => pure self
  | some vma => do
    let r ← vma.unmapIfOverlap first last pt
    let self := self.insert i r.1
    match r.2 with
    | .split rightVma => insertRaw self rightVma
    | _ => pure self

/-- A segment reported as removed stays in the map. -/
def unmap (self : VmaRange) (first last : ℕ) (pt : PageTable) : Kernel VmaRange :=
  if first = last then pure self
  else do
    let idx ← overlapping self first last
    idx.foldlM (unmapAt first last pt) self

def findFixed (self : VmaRange) (first last : ℕ) (pt : PageTable) :
    Kernel (VmaRange × Option ℕ) := do
  let self ← unmap self first last pt
  pure (self, some first)

def findAnywhereLoop (len : ℕ) : ℕ → List (ℕ × VirtMemoryAddr) → Option ℕ
  | lastEnd, [] => if wrappingAdd lastEnd len ≤ mmapTop then some lastEnd else none
  | lastEnd, (start, vma) :: rest =>
    if wrappingAdd lastEnd len ≤ start then some lastEnd
    else findAnywhereLoop len (max lastEnd vma.endVaddr) rest

def findAnywhere (self : VmaRange) (hint len : ℕ) : Option ℕ :=
  findAnywhereLoop len (max hint mmapBottom) self.toList

/-- The new parts of a split segment, the right one first. -/
def insertParts (self : VmaRange) : SplitOverlap → Kernel VmaRange
  | .shrinkLeft rightVma => insertRaw self rightVma
  | .shrinkRight rightVma => insertRaw self rightVma
  | .split middleVma rightVma => do
    let self ← insertRaw self rightVma
    insertRaw self middleVma
  | .unchange => pure self
  | .modified => pure self

def mprotectAt (first last : ℕ) (newFlags : MapPermission) (pt : PageTable) (self : VmaRange)
    (i : ℕ) : Kernel VmaRange :=
  match self[i]? with
  | none => pure self
  | some vma => do
    let r ← vma.splitAndModifyIfOverlap first last newFlags pt
    insertParts (self.insert i r.1) r.2

def mprotect (self : VmaRange) (first last : ℕ) (newFlags : MapPermission) (pt : PageTable) :
    Kernel VmaRange := do
  let idx ← overlapping self first last
  idx.foldlM (mprotectAt first last newFlags pt) self

/-- The key of the last segment that ends at `first`; any other overlap is an error. -/
def expandLoop (first last : ℕ) : Option ℕ → List (ℕ × VirtMemoryAddr) →
    Kernel (Except Errno (Option ℕ))
  | heapVm, [] => pure (.ok heapVm)
  | heapVm, (key, vma) :: rest =>
    if vma.endVaddr = first then expandLoop first last (some key) rest
    else do
      let overlap ← vma.isOverlap first last
      if overlap then pure (.error .ENOMEM) else expandLoop first last heapVm rest

def expand (self : VmaRange) (first last : ℕ) : Kernel (VmaRange × Except Errno Bool) := do
  match ← expandLoop first last none self.toList with
  | .error e => pure (self, .error e)
  | .ok none => pure (self, .error .ENOMEM)
  | .ok (some key) =>
    match self[key]? with
    | none => throw .unwrapNone
    | some vma => pure (self.insert key (vma.expand last), .ok true)

end VmaRange

end DuckOs.VirtMemoryModel
