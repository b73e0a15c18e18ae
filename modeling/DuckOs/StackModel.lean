import DuckOs.AddressModel
import DuckOs.LittleEndianWords
import DuckOs.PathModel

namespace DuckOs.StackModel
open AddressModel LittleEndianWords PathModel

abbrev Memory := ℕ → UInt8

abbrev StackM := EStateM Panic Memory

structure StackInfo where
  auxv : List (ℕ × ℕ)
  args : List Str
  envs : List Str

structure StackLayout where
  argc : ℕ
  argv : ℕ
  envp : ℕ
  auxv : ℕ

def atNull : ℕ := 0
def atPlatform : ℕ := 15
def atRandom : ℕ := 25
def atExecfn : ℕ := 31

/-- `usize` subtraction of the release build. -/
def wrappingSub (a b : ℕ) : ℕ := (a + (wordSize - b % wordSize)) % wordSize

def alignSp (sp : ℕ) : ℕ := sp / 16 * 16

/-- `riscv64`, with its NUL. -/
def platform : List UInt8 := [0x72, 0x69, 0x73, 0x63, 0x76, 0x36, 0x34, 0]

/-- The four numbers of the generator, each with its highest byte first. -/
def randomBytes (random : Fin 4 → ℕ) : List UInt8 :=
  (List.ofFn random).flatMap fun n => (leBytes 4 n).reverse

def usizes (ws : List ℕ) : List UInt8 := ws.flatMap (leBytes 8)

section Stores

-- where the kernel can write
variable (mapped : ℕ → Bool)

/-- The handler of a fault in the kernel loops. -/
def store (addr : ℕ) (byte : UInt8) : StackM Unit :=
  if mapped addr then modify fun m => Function.update m addr byte else throw .deadlock

def storeBytes : ℕ → List UInt8 → StackM Unit
  | _, [] => pure ()
  | addr, byte :: rest => do
    store mapped addr byte
    storeBytes (addr + 1) rest

def storeUsizes : ℕ → List ℕ → StackM Unit
  | _, [] => pure ()
  | addr, w :: rest => do
    storeBytes mapped addr (leBytes 8 w)
    storeUsizes (addr + 8) rest

/-- One string with the NUL behind it. -/
def pushStr (sp : ℕ) (s : Str) : StackM ℕ := do
  let endPtr := wrappingSub sp 1
  let ptr := wrappingSub endPtr (asBytes s).length
  storeBytes mapped ptr (asBytes s)
  store mapped endPtr 0
  pure ptr

/-- The strings from the first to the last, each below the one before, and their addresses. -/
def pushStrs (sp : ℕ) (strs : List Str) : StackM (ℕ × List ℕ) :=
  strs.foldlM (fun r s => do
    let ptr ← pushStr mapped r.1 s
    pure (ptr, r.2 ++ [ptr])) (sp, [])

def buildStack (info : StackInfo) (random : Fin 4 → ℕ) (ustackSp : ℕ) :
    StackM (ℕ × StackLayout) := do
  let (sp, envpAddr) ← pushStrs mapped ustackSp info.envs
  let (sp, argvAddr) ← pushStrs mapped (alignSp sp) info.args
  let platformAddr := wrappingSub (alignSp sp) platform.length
  storeBytes mapped platformAddr platform
  let randomAddr := wrappingSub platformAddr 16
  storeBytes mapped randomAddr (randomBytes random)
  let auxv := info.auxv ++ [(atPlatform, platformAddr), (atRandom, randomAddr),
    (atExecfn, argvAddr.head?.getD 0), (atNull, 0)]
  let auxv0 := wrappingSub (alignSp randomAddr) (auxv.length * 16)
  storeUsizes mapped auxv0 (auxv.flatMap fun e => [e.1, e.2])
  let sp := wrappingSub auxv0 8
  storeUsizes mapped sp [0]
  let envp0 := wrappingSub sp (envpAddr.length * 8)
  storeUsizes mapped envp0 envpAddr
  let sp := wrappingSub envp0 8
  storeUsizes mapped sp [0]
  let argv0 := wrappingSub sp (argvAddr.length * 8)
  storeUsizes mapped argv0 argvAddr
  let argc0 := wrappingSub argv0 8
  storeUsizes mapped argc0 [info.args.length]
  pure (argc0, ⟨argc0, argv0, envp0, auxv0⟩)

end Stores

structure TrapContext where
  x : ℕ → ℕ
  sepc : ℕ

def TrapContext.setRegister (cx : TrapContext) (reg value : ℕ) : TrapContext :=
  { cx with x := Function.update cx.x reg value }

/-- Register 2 is `sp`. -/
def initTrapCx (entry sp : ℕ) : TrapContext :=
  TrapContext.setRegister ⟨fun _ => 0, entry⟩ 2 sp

/-- The registers from `a0` to `a3`. -/
def execTrapCx (entry sp : ℕ) (layout : StackLayout) : TrapContext :=
  ((((initTrapCx entry sp).setRegister 10 layout.argc).setRegister 11 layout.argv).setRegister 12
    layout.envp).setRegister 13 layout.auxv

/-- `from_exec` once the program is loaded. The stack pointer of `build_stack` is not used. -/
def execContext (mapped : ℕ → Bool) (entry ustackSp : ℕ) (info : StackInfo)
    (random : Fin 4 → ℕ) : StackM (TrapContext × StackLayout) := do
  let (_sp, layout) ← buildStack mapped info random ustackSp
  pure (execTrapCx entry ustackSp layout, layout)

end DuckOs.StackModel
