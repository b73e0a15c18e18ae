import DuckOs.VirtMemoryModel

namespace DuckOs.MemorySetModel
open AddressModel PermissionFlags KernelMachine PageTableModel PageModel
open VirtMemoryModel
open OrderedMaps (BTreeMap)

/-- Pages shared copy-on-write; the handler is always the one of `CowPageFaultHandler`. -/
structure CowManager where
  pageManager : BTreeMap Page

namespace CowManager

def new : CowManager := ⟨∅⟩

def isInCowLoop (va : ℕ) : List (ℕ × Page) → Kernel Bool
  | [] => pure false
  | (vpn, _) :: rest => do
    let vaStart ← vpnToVirt vpn
    let vaEnd ← vpnToVirt (vpn + 1)
    if vaStart ≤ va ∧ va < vaEnd then pure true else isInCowLoop va rest

def isInCow (self : CowManager) (va : ℕ) : Kernel Bool := isInCowLoop va self.pageManager.toList

/-- Every shared page gets one more handle. The entries of the new table are looked at for
debug assertions only. -/
def fromOtherCow (self another : CowManager) (pt : PageTable) : Kernel CowManager := do
  another.pageManager.toList.foldlM (fun _ entry => do
    let _ ← arcClone entry.2
    pure ()) ()
  another.pageManager.toList.foldlM (fun _ entry => do
    let va ← vpnToVirt entry.1
    let _ ← PageTable.translateVaToPte pt va
    pure ()) ()
  dropPages self.pageManager
  pure ⟨another.pageManager⟩

end CowManager

structure MemorySet where
  areas : VmaRange
  pt : PageTable
  heapEnd : ℕ
  cowManager : CowManager

/-- The page goes into the segment before the entry is made. -/
def installPage (pma : PhysMemoryAddr) (vaddr : ℕ) (page : Page) (flag : PTEFlags)
    (pt : PageTable) : Kernel (PhysMemoryAddr × PageTable) := do
  let vpn ← virtToVpn vaddr
  let pma ← pma.pushPmaPage vpn page
  let pt ← PageTable.mapOne pt vpn page.ppn flag
  PageTable.activate pt
  pure (pma, pt)

/-- A fresh zeroed page is installed. -/
def installFresh (pma : PhysMemoryAddr) (vaddr : ℕ) (permission : MapPermission) (flag : PTEFlags)
    (pt : PageTable) : Kernel (PhysMemoryAddr × PageTable) := do
  let page ← Page.new (pagePermissionFrom permission)
  let page ← arcNew page
  installPage pma vaddr page flag pt

def uStackHandler (pma : PhysMemoryAddr) (vaddr : ℕ) (permission : MapPermission)
    (pt : PageTable) : Kernel (PhysMemoryAddr × PageTable) :=
  installFresh pma vaddr permission (PTEFlags.W ||| PTEFlags.R ||| PTEFlags.U) pt

def uHeapHandler (pma : PhysMemoryAddr) (vaddr : ℕ) (permission : MapPermission)
    (pt : PageTable) : Kernel (PhysMemoryAddr × PageTable) :=
  installFresh pma vaddr permission (PTEFlags.W ||| PTEFlags.R ||| PTEFlags.U ||| PTEFlags.X) pt

/-- The page of a file mapping is the one in the file's cache, read in first. -/
def cachedPage (backenFile : BackenFile) (vaddr startVa : ℕ) : Kernel Page := do
  let offset := wrappingAdd (wrappingAdd backenFile.offset vaddr) (wordSize - startVa)
  let info ← unwrap .todo backenFile.file.metadata
  let cache ← unwrap .unwrapNone info.pageCache
  let found ← PageCache.findPageAndCreate cache offset (some info.inode)
  let page ← unwrap .explicit found
  Page.load page
  pure page

def mmapHandler (pma : PhysMemoryAddr) (vaddr startVa : ℕ) (permission : MapPermission)
    (pt : PageTable) : Kernel (PhysMemoryAddr × PageTable) :=
  match pma.backenFile with
  | some backenFile => do
    let page ← cachedPage backenFile vaddr startVa
    installPage pma vaddr page (pteFlagsFrom permission) pt
  | none => installFresh pma vaddr permission (pteFlagsFrom permission) pt

/-- The shared page is copied, whoever else still uses it. -/
def cowHandler (pma : PhysMemoryAddr) (vaddr : ℕ) (cow : BTreeMap Page) (pt : PageTable) :
    Kernel (PhysMemoryAddr × BTreeMap Page × PageTable) := do
  let found ← PageTable.translateVaToPte pt vaddr
  let slot ← unwrap .unwrapNone found
  let pte ← readPte slot
  let flags := remove (PageTableEntry.flags pte ||| PTEFlags.W) PTEFlags.COW
  let vpn ← virtToVpn vaddr
  let page ← unwrap .unwrapNone cow[vpn]?
  let newPage ← Page.newFromPage page.ppn page.permission
  PageTable.unmap pt vpn
  let pt ← PageTable.mapOne pt vpn newPage.ppn flags
  PageTable.activate pt
  let newPage ← arcNew newPage
  let pma ← pma.pushPmaPage vpn newPage
  arcDrop page
  pure (pma, cow.erase vpn, pt)

/-- Outside copy-on-write the handler of the segment runs; a segment may have none. -/
def VirtMemoryAddr.runHandler (self : VirtMemoryAddr) (vaddr : ℕ) (pt : PageTable) :
    Kernel (PhysMemoryAddr × PageTable) :=
  match self.pageFaultHandler with
  | none => pure (self.pma, pt)
  | some .uStack => uStackHandler self.pma vaddr self.mapPermission pt
  | some .uHeap => uHeapHandler self.pma vaddr self.mapPermission pt
  | some .mmap => mmapHandler self.pma vaddr self.startVaddr self.mapPermission pt
  | some .cow => throw .unwrapNone

def VirtMemoryAddr.handlePageFault (self : VirtMemoryAddr) (vaddr : ℕ) (pt : PageTable) :
    Kernel (VirtMemoryAddr × PageTable) := do
  let r ← VirtMemoryAddr.runHandler self vaddr pt
  pure ({ self with pma := r.1 }, r.2)

namespace MemorySet

def newUser : Kernel MemorySet := do
  let pt ← PageTable.newUser
  pure ⟨∅, pt, 0, CowManager.new⟩

def activate (self : MemorySet) : Kernel Unit := PageTable.activate self.pt

def allocVmaAnywhere (self : MemorySet) (hint len : ℕ) (mapPermission : MapPermission)
    (mapType : MapType) (handler : Option PageFaultHandler) :
    Kernel (Option VirtMemoryAddr) :=
  match VmaRange.findAnywhere self.areas hint len with
  | none => pure none
  | some startVa =>
    some <$> VirtMemoryAddr.new startVa (wrappingAdd startVa len) mapPermission
      mapType .mmap handler

def allocVmaFixed (self : MemorySet) (first last : ℕ) (mapPermission : MapPermission)
    (mapType : MapType) (handler : Option PageFaultHandler) :
    Kernel (MemorySet × Option VirtMemoryAddr) := do
  let r ← VmaRange.findFixed self.areas first last self.pt
  let self := { self with areas := r.1 }
  match r.2 with
  | none => pure (self, none)
  | some startVa => do
    let vma ← VirtMemoryAddr.new startVa last mapPermission mapType .mmap handler
    pure (self, some vma)

def writeInitial (vmArea : VirtMemoryAddr) (data : Option (List UInt8)) (offset : ℕ) :
    Kernel Unit :=
  match data with
  | none => pure ()
  | some bytes => vmArea.writeDataToPage vmArea.startVaddr bytes offset

def push (self : MemorySet) (vmArea : VirtMemoryAddr) (data : Option (List UInt8)) (offset : ℕ) :
    Kernel MemorySet := do
  let mapped ← vmArea.mapSelfAll self.pt
  writeInitial mapped.1 data offset
  let areas ← VmaRange.insertRaw self.areas mapped.1
  pure { self with areas := areas, pt := mapped.2 }

def pushNoMap (self : MemorySet) (vmArea : VirtMemoryAddr) : Kernel MemorySet := do
  let areas ← VmaRange.insertRaw self.areas vmArea
  pure { self with areas := areas }

def withFile (vma : VirtMemoryAddr) : Option BackenFile → VirtMemoryAddr
  | some file => { vma with pma := vma.pma.addBackenFile file }
  | none => vma

def mmap (self : MemorySet) (vma : VirtMemoryAddr) (backenFile : Option BackenFile) :
    Kernel (MemorySet × Option ℕ) := do
  let startAddr := vma.startVaddr
  let self ← pushNoMap self (withFile vma backenFile)
  pure (self, some startAddr)

def mprotect (self : MemorySet) (first last : ℕ) (newFlags : MapPermission) :
    Kernel MemorySet := do
  let areas ← VmaRange.mprotect self.areas first last newFlags self.pt
  pure { self with areas := areas }

def munmap (self : MemorySet) (first last : ℕ) : Kernel MemorySet := do
  let areas ← VmaRange.unmap self.areas first last self.pt
  pure { self with areas := areas }

def expand (self : MemorySet) (first last : ℕ) : Kernel (MemorySet × Except Errno Bool) := do
  let r ← VmaRange.expand self.areas first last
  pure ({ self with areas := r.1 }, r.2)

/-- The first segment in key order that contains the address. -/
def findVmByVaddr (self : MemorySet) (vaddr : ℕ) : Option (ℕ × VirtMemoryAddr) :=
  self.areas.toList.find? fun entry => entry.2.isContain vaddr

def handlePageFault (self : MemorySet) (vaddr : ℕ) : Kernel (MemorySet × Except Errno Unit) :=
  match findVmByVaddr self vaddr with
  | none => pure (self, .error .EFAULT)
  | some (key, vma) => do
    let inCow ← self.cowManager.isInCow vaddr
    if inCow then do
      let r ← cowHandler vma.pma vaddr self.cowManager.pageManager self.pt
      pure ({ self with
        areas := self.areas.insert key { vma with pma := r.1 }
        pt := r.2.2
        cowManager := ⟨r.2.1⟩ }, .ok ())
    else do
      let r ← VirtMemoryAddr.handlePageFault vma vaddr self.pt
      pure ({ self with areas := self.areas.insert key r.1, pt := r.2 }, .ok ())

/-- The first segment in key order whose page numbers contain `vpn`; the bounds of every segment
looked at are checked. -/
def findVmMutByVpn (self : MemorySet) (vpn : ℕ) : Kernel (Option (ℕ × VirtMemoryAddr)) :=
  self.areas.toList.findM? fun entry => do
    let range ← entry.2.vmaRange
    pure (decide (range.1 ≤ vpn) && decide (vpn < range.2))

/-- The pages that the parent shares so far, and the child made so far. -/
structure LazyFork where
  cow : BTreeMap Page
  child : MemorySet

def insertShared (cow : BTreeMap Page) (vpn : ℕ) (page : Page) : Kernel (BTreeMap Page) := do
  let page ← arcClone page
  PhysMemoryAddr.dropReplaced cow[vpn]?
  pure (cow.insert vpn page)

/-- The parent's entry loses `W` and gets `COW`, and the child maps the same frame in the same
way. A page that is not resident is still to be done. -/
def sharePage (parent : PageTable) (pages : BTreeMap Page) (s : LazyFork) (vpn : ℕ) :
    Kernel LazyFork :=
  match pages[vpn]? with
  | none => throw .todo
  | some page => do
    let va ← vpnToVirt vpn
    let found ← PageTable.translateVaToPte parent va
    let slot ← unwrap .unwrapNone found
    let pte ← readPte slot
    let newFlags := remove (PageTableEntry.flags pte ||| PTEFlags.COW) PTEFlags.W
    writePte slot (PageTableEntry.setFlags pte newFlags)
    let pt ← PageTable.mapOne s.child.pt vpn page.ppn newFlags
    let childCow ← insertShared s.child.cowManager.pageManager vpn page
    let cow ← insertShared s.cow vpn page
    pure ⟨cow, { s.child with pt := pt, cowManager := ⟨childCow⟩ }⟩

def shareSegment (parent : PageTable) (s : LazyFork) (entry : ℕ × VirtMemoryAddr) :
    Kernel LazyFork := do
  let range ← entry.2.vmaRange
  let s ← (List.range' range.1 (range.2 - range.1)).foldlM
    (sharePage parent entry.2.pma.pageManager) s
  let child ← pushNoMap s.child (VirtMemoryAddr.fromAnother entry.2)
  pure { s with child := child }

/-- The parent, whose entries and shared pages change, and the child. -/
def fromUserLazily (self : MemorySet) : Kernel (MemorySet × MemorySet) := do
  let ms ← newUser
  let cow ← CowManager.fromOtherCow ms.cowManager self.cowManager ms.pt
  let s ← self.areas.toList.foldlM (shareSegment self.pt)
    ⟨self.cowManager.pageManager, { ms with cowManager := cow }⟩
  pure ({ self with cowManager := ⟨s.cow⟩ }, s.child)

end MemorySet

end DuckOs.MemorySetModel
