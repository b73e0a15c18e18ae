import DuckOs.MemorySetModel

/-! The memory system calls of one process. An error number is a result; only a
failed assertion or unwrap stops the kernel. -/
namespace DuckOs.MemorySyscalls
open AddressModel PermissionFlags KernelMachine PageModel
open VirtMemoryModel MemorySetModel
open OrderedMaps (BTreeMap)

abbrev SyscallResult := Except Errno ℕ

/-- The part of the process control block that the calls use. -/
structure Process where
  vm : MemorySet
  fdTable : BTreeMap File

def mmapRejects (addr length offset : ℕ) (flags : BitVec 32) : Bool :=
  !vaddrIsAlign offset || decide (length = 0) || !vaddrIsAlign addr ||
    !intersects (mmapFlagsFromBitsTruncate flags) (MmapFlags.MAP_PRIVATE ||| MmapFlags.MAP_SHARED)

def mmapAlloc (vm : MemorySet) (addr length : ℕ) (flags : MmapFlags) (permission : MapPermission) :
    Kernel (MemorySet × Except Errno VirtMemoryAddr) :=
  if contains flags MmapFlags.MAP_FIXED then
    if addr = 0 then pure (vm, .error .EINVAL)
    else do
      let r ← vm.allocVmaFixed addr (wrappingAdd addr length) permission .framed (some .mmap)
      match r.2 with
      | none => pure (r.1, .error .ENOMEM)
      | some vma => pure (r.1, .ok vma)
  else do
    match ← vm.allocVmaAnywhere addr length permission .framed (some .mmap) with
    | none => pure (vm, .error .ENOMEM)
    | some vma => pure (vm, .ok vma)

def mmapInstall (self : Process) (vma : VirtMemoryAddr) (flags : MmapFlags) (fd offset : ℕ) :
    Kernel (Process × SyscallResult) :=
  if contains flags MmapFlags.MAP_ANONYMOUS then
    if offset ≠ 0 then pure (self, .error .EINVAL)
    else do
      let r ← self.vm.mmap vma none
      let start ← unwrap .unwrapNone r.2
      pure ({ self with vm := r.1 }, .ok start)
  else
    match self.fdTable[fd]? with
    | none => pure (self, .error .EBADF)
    | some file => do
      let r ← self.vm.mmap vma (some ⟨offset, file⟩)
      let start ← unwrap .unwrapNone r.2
      pure ({ self with vm := r.1 }, .ok start)

def mmapFlagsUsed (flags : BitVec 32) : MmapFlags :=
  remove (mmapFlagsFromBitsTruncate flags) MmapFlags.MAP_PRIVATE ||| MmapFlags.MAP_SHARED

def mmapPermission (prot : BitVec 32) : MapPermission :=
  mapPermissionFrom (mmapProtFromBitsTruncate prot) ||| MapPermission.U

def sysMmap (self : Process) (addr length : ℕ) (prot flags : BitVec 32) (fd offset : ℕ) :
    Kernel (Process × SyscallResult) :=
  if mmapRejects addr length offset flags then pure (self, .error .EINVAL)
  else do
    let r ← mmapAlloc self.vm addr length (mmapFlagsUsed flags) (mmapPermission prot)
    let self := { self with vm := r.1 }
    match r.2 with
    | .error e => pure (self, .error e)
    | .ok vma => mmapInstall self vma (mmapFlagsUsed flags) fd offset

/-- Every protection word contains `PROT_NONE`, so the last branch is never taken. -/
def sysMprotect (self : Process) (addr len : ℕ) (prot : BitVec 32) :
    Kernel (Process × SyscallResult) :=
  if !vaddrIsAlign addr then pure (self, .error .EINVAL)
  else
    match mmapProtFromBits prot with
    | none => pure (self, .error .EINVAL)
    | some flags =>
      if contains flags MmapProt.PROT_NONE then pure (self, .ok 0)
      else do
        let vm ← self.vm.mprotect addr (wrappingAdd addr len) (mapPermissionFrom flags)
        vm.activate
        pure ({ self with vm := vm }, .ok 0)

def sysMunmap (self : Process) (addr length : ℕ) : Kernel (Process × SyscallResult) :=
  if !vaddrIsAlign addr || decide (length = 0) then pure (self, .error .EINVAL)
  else do
    let vm ← self.vm.munmap addr (wrappingAdd addr length)
    vm.activate
    pure ({ self with vm := vm }, .ok 0)

/-- Shrinking unmaps but leaves `heap_end` where it was. -/
def sysBrk (self : Process) (addr : ℕ) : Kernel (Process × SyscallResult) :=
  if addr = 0 then pure (self, .ok self.vm.heapEnd)
  else if self.vm.heapEnd < addr then do
    let r ← self.vm.expand self.vm.heapEnd addr
    match r.2 with
    | .error e => pure ({ self with vm := r.1 }, .error e)
    | .ok _ => do
      let vm := { r.1 with heapEnd := addr }
      vm.activate
      pure ({ self with vm := vm }, .ok 0)
  else if addr < self.vm.heapEnd then do
    let vm ← self.vm.munmap addr self.vm.heapEnd
    vm.activate
    pure ({ self with vm := vm }, .ok 0)
  else do
    self.vm.activate
    pure (self, .ok 0)

end DuckOs.MemorySyscalls
