import DuckOs.KernelMachine

namespace DuckOs.PageTableModel
open LittleEndianWords AddressModel PermissionFlags KernelMachine

namespace PageTableEntry

def new (ppn : ℕ) (flags : PTEFlags) : ℕ := ((ppn <<< 10) % wordSize) ||| flags.toNat
def empty : ℕ := 0
/-- The nine bits kept by the mask are all declared, so `from_bits` never fails here. -/
def flags (pte : ℕ) : PTEFlags := BitVec.ofNat 9 (pte &&& ((1 <<< 9) - 1))
def ppn (pte : ℕ) : ℕ := (pte >>> 10) &&& ((1 <<< 44) - 1)
def isValid (pte : ℕ) : Bool := contains (flags pte) PTEFlags.V

/-- `BitField::set_bit` on a 64-bit word. -/
def setBit (w i : ℕ) (value : Bool) : ℕ :=
  if value then w ||| (1 <<< i) else w &&& ((wordSize - 1) ^^^ (1 <<< i))

def setFlags (pte : ℕ) (fl : PTEFlags) : ℕ := ((ppn pte <<< 10) % wordSize) ||| fl.toNat

end PageTableEntry

structure Slot where
  frame : ℕ
  index : ℕ
  deriving DecidableEq, Repr

def pteWord (m : Machine) (f i : ℕ) : ℕ := readWord (m.ram f) i

def readPte (s : Slot) : Kernel ℕ := do
  let m ← get
  pure (pteWord m s.frame s.index)

def writePte (s : Slot) (pte : ℕ) : Kernel Unit :=
  modify fun m => setRow m s.frame (writeWord (m.ram s.frame) s.index pte)

namespace PageTable

def new : Kernel PageTable := do
  let frame ← allocFrameUnwrap
  pure ⟨ppnToPhys frame, [frame]⟩

/-- The two root slots of the kernel windows are copied from the kernel's table. -/
def newUser : Kernel PageTable := do
  let frame ← allocFrameUnwrap
  let m ← get
  let kernel ← unwrap .unwrapNone m.kernelSpace
  let user ← pteArray (ppnToPhys frame)
  let root ← pteArray kernel.rootPaddr
  let code ← readPte ⟨root, kernelPtePos⟩
  writePte ⟨user, kernelPtePos⟩ code
  let mmio ← readPte ⟨root, kernelMmioPtePos⟩
  writePte ⟨user, kernelMmioPtePos⟩ mmio
  pure ⟨ppnToPhys frame, [frame]⟩

def rootPpn (self : PageTable) : Kernel ℕ := physToPpn self.rootPaddr

def token (self : PageTable) : Kernel ℕ := do
  let ppn ← rootPpn self
  pure ((8 <<< 60) ||| ppn)

def activate (self : PageTable) : Kernel Unit := do
  let satp ← token self
  modify fun m => { m with satp := satp }

/-- One round for each level; the last level returns the slot whatever it holds. -/
def findPteCreateLoop (self : PageTable) (pa : ℕ) : List ℕ → Kernel (PageTable × Slot)
  | [] => throw .explicit
  | [i] => do
    let f ← pteArray pa
    pure (self, ⟨f, i⟩)
  | i :: rest => do
    let f ← pteArray pa
    let pte ← readPte ⟨f, i⟩
    if PageTableEntry.isValid pte then
      findPteCreateLoop self (ppnToPhys (PageTableEntry.ppn pte)) rest
    else
      let frame ← allocFrameUnwrap
      let made := PageTableEntry.new frame PTEFlags.V
      writePte ⟨f, i⟩ made
      findPteCreateLoop { self with frames := self.frames ++ [frame] }
        (ppnToPhys (PageTableEntry.ppn made)) rest

def findPteCreate (self : PageTable) (vaddr : ℕ) : Kernel (PageTable × Slot) := do
  let idx ← vaddrToPteVpn vaddr
  findPteCreateLoop self self.rootPaddr [idx.1, idx.2.1, idx.2.2]

def findPteLoop (pa : ℕ) : List ℕ → Kernel (Option Slot)
  | [] => throw .explicit
  | i :: rest => do
    let f ← pteArray pa
    let pte ← readPte ⟨f, i⟩
    if !PageTableEntry.isValid pte then pure none
    else if rest.isEmpty then pure (some ⟨f, i⟩)
    else findPteLoop (ppnToPhys (PageTableEntry.ppn pte)) rest

def findPte (self : PageTable) (vaddr : ℕ) : Kernel (Option Slot) := do
  let idx ← vaddrToPteVpn vaddr
  findPteLoop self.rootPaddr [idx.1, idx.2.1, idx.2.2]

def mapOne (self : PageTable) (vpn ppn : ℕ) (flags : PTEFlags) : Kernel PageTable := do
  let vaddr ← vpnToVirt vpn
  let (pt, slot) ← findPteCreate self vaddr
  let pte ← readPte slot
  if PageTableEntry.isValid pte then throw .explicit
  else
    writePte slot (PageTableEntry.new ppn (flags ||| PTEFlags.A ||| PTEFlags.D ||| PTEFlags.V))
    pure pt

def unmap (self : PageTable) (vpn : ℕ) : Kernel Unit := do
  let vaddr ← vpnToVirt vpn
  match ← findPte self vaddr with
  | some slot => do
    let pte ← readPte slot
    assertThat (PageTableEntry.isValid pte)
    writePte slot PageTableEntry.empty
  | none => pure ()

def translateVaToPte (self : PageTable) (vaddr : ℕ) : Kernel (Option Slot) := findPte self vaddr

/-- The missing entry is a panic here, not a `None`. -/
def translateVaToPa (self : PageTable) (vaddr : ℕ) : Kernel (Option ℕ) := do
  let offset ← vaddrOffset vaddr
  match ← translateVaToPte self vaddr with
  | some slot => do
    let pte ← readPte slot
    assertThat (PageTableEntry.isValid pte)
    pure (some (wrappingAdd (ppnToPhys (PageTableEntry.ppn pte)) offset))
  | none => throw .explicit

/-- Only the bits `R W X U` are replaced. -/
def replaceFlags (pte : ℕ) (flags : PTEFlags) : ℕ :=
  [1, 2, 3, 4].foldl (fun w i => PageTableEntry.setBit w i (flags.getLsbD i)) pte

def modifyFlags (self : PageTable) (vpn : ℕ) (flags : PTEFlags) : Kernel Unit := do
  let vaddr ← vpnToVirt vpn
  let found ← translateVaToPte self vaddr
  let slot ← unwrap .unwrapNone found
  let pte ← readPte slot
  writePte slot (replaceFlags pte flags)

end PageTable

end DuckOs.PageTableModel
