import DuckOs.OpenFiles
import DuckOs.BootMachine

namespace DuckOs.ByteArrayFiles
open ExecutionRules AddressModel PermissionFlags KernelMachine PageModel DiskPages
open PageCaches VirtMemoryModel Ext4FileModel OpenFiles BootMachine

inductive FileOp where
  | read (bufLen : ℕ) (flags : OpenFlags)
  | write (buf : List UInt8) (flags : OpenFlags)
  | seek (target : SeekFrom)

inductive Outcome where
  | bytes (r : Except Errno (ℕ × List UInt8))
  | count (r : Except Errno ℕ)
  deriving DecidableEq

structure Observed where
  outcome : Outcome
  pos : ℕ
  size : ℕ

def FileOp.exec (file : OpenFile) : FileOp → Kernel (OpenFile × Outcome)
  | .read bufLen flags => do
    let r ← Ext4MemFile.read file bufLen flags
    pure (r.1, .bytes r.2)
  | .write buf flags => do
    let r ← Ext4MemFile.write file buf flags
    pure (r.1, .count r.2)
  | .seek target => do
    let r ← Ext4MemFile.seek file target
    pure (r.1, .count r.2)

def runFile : List FileOp → OpenFile → Kernel (List Observed)
  | [], _ => pure []
  | op :: ops, file => do
    let r ← op.exec file
    let size ← iSize file.inode
    let rest ← runFile ops r.1
    pure (⟨r.2, r.1.pos, size⟩ :: rest)

section ByteArray

/-- A growable byte array with a cursor. -/
structure ByteFile where
  data : List UInt8
  pos : ℕ

namespace ByteFile

def overwrite (data : List UInt8) (pos : ℕ) (buf : List UInt8) : List UInt8 :=
  if buf = [] then data
  else (data ++ List.replicate (pos - data.length) 0).take pos ++ buf ++
    data.drop (pos + buf.length)

def target (f : ByteFile) : SeekFrom → Option ℕ
  | .start pos => some pos
  | .current delta => if (f.pos : ℤ) + delta < 0 then none else some ((f.pos : ℤ) + delta).toNat
  | .fromEnd delta =>
    if (f.data.length : ℤ) + delta < 0 then none else some ((f.data.length : ℤ) + delta).toNat

def exec (f : ByteFile) : FileOp → ByteFile × Outcome
  | .read bufLen flags =>
    if contains flags OpenFlags.O_PATH then (f, .bytes (.error .EBADF))
    else
      let bytes := (f.data.drop f.pos).take bufLen
      (⟨f.data, f.pos + bytes.length⟩, .bytes (.ok (bytes.length, bytes)))
  | .write buf flags =>
    if contains flags OpenFlags.O_PATH then (f, .count (.error .EBADF))
    else (⟨overwrite f.data f.pos buf, f.pos + buf.length⟩, .count (.ok buf.length))
  | .seek whence =>
    match f.target whence with
    | none => (f, .count (.error .EINVAL))
    | some pos => (⟨f.data, pos⟩, .count (.ok pos))

def run : ByteFile → List FileOp → List Observed
  | _, [] => []
  | f, op :: ops =>
    ⟨(f.exec op).2, (f.exec op).1.pos, (f.exec op).1.data.length⟩ :: run (f.exec op).1 ops

/-- No position along the calls exceeds a machine word. -/
def Bounded : ByteFile → List FileOp → Prop
  | f, [] => f.pos < 2 ^ 64
  | f, op :: ops => f.pos < 2 ^ 64 ∧ Bounded (f.exec op).1 ops

instance decidableBounded : ∀ (f : ByteFile) (ops : List FileOp), Decidable (Bounded f ops)
  | f, [] => inferInstanceAs (Decidable (f.pos < 2 ^ 64))
  | f, op :: ops =>
    have := decidableBounded (f.exec op).1 ops
    inferInstanceAs (Decidable (f.pos < 2 ^ 64 ∧ Bounded (f.exec op).1 ops))

def view (data : List UInt8) (x : ℕ) : UInt8 := data.getD x 0

variable {data buf : List UInt8} {pos : ℕ}

theorem Bounded.pos_lt {f : ByteFile} {ops : List FileOp} (h : Bounded f ops) : f.pos < 2 ^ 64 := by
  cases ops with
  | nil => exact h
  | cons op ops => exact h.1

theorem length_overwrite : (overwrite data pos buf).length =
    if 0 < buf.length then max data.length (pos + buf.length) else data.length := by
  unfold overwrite
  by_cases hbuf : buf = []
  · simp [hbuf]
  · have hlen : 0 < buf.length := List.length_pos_iff.mpr hbuf
    rw [if_neg hbuf,if_pos hlen]
    simp only [List.length_append,List.length_take,List.length_replicate,List.length_drop]
    omega

theorem view_overwrite : view (overwrite data pos buf) = writeBytes (view data) pos buf := by
  unfold overwrite
  by_cases hbuf : buf = []
  · rw [if_pos hbuf,hbuf,writeBytes_nil]
  · rw [if_neg hbuf]
    funext x
    have hhead : ((data ++ List.replicate (pos - data.length) 0).take pos).length = pos := by
      simp only [List.length_take,List.length_append,List.length_replicate]
      omega
    unfold view writeBytes
    simp only [List.append_assoc,List.getD_eq_getElem?_getD]
    by_cases hlow : x < pos
    · rw [if_neg (by omega),List.getElem?_append_left (by omega),List.getElem?_take,if_pos hlow]
      by_cases hdata : x < data.length
      · rw [List.getElem?_append_left hdata]
      · rw [List.getElem?_append_right (by omega),List.getElem?_replicate,
          List.getElem?_eq_none (by omega : data.length ≤ x),if_pos (by omega)]
        rfl
    · rw [List.getElem?_append_right (by omega),hhead]
      by_cases hin : x < pos + buf.length
      · rw [if_pos (by omega),List.getElem?_append_left (by omega)]
      · rw [if_neg (by omega),List.getElem?_append_right (by omega),List.getElem?_drop]
        congr 2
        omega

theorem shown_view (bufLen : ℕ) :
    shown (view data) pos (min bufLen (data.length - pos)) = (data.drop pos).take bufLen := by
  refine List.ext_getElem ?_ fun i h₁ h₂ => ?_
  · simp
  · rw [length_shown] at h₁
    have hin : pos + i < data.length := by omega
    simp [shown,view,hin]

theorem seekTarget_eq {f : ByteFile} {whence : SeekFrom}
    (h : ∀ q, f.target whence = some q → q < 2 ^ 64) :
    Ext4MemFile.seekTarget f.pos f.data.length whence = f.target whence := by
  have hmove : ∀ (base : ℕ) (delta : ℤ),
      (∀ q, (if (base : ℤ) + delta < 0 then none else some ((base : ℤ) + delta).toNat) = some q →
        q < 2 ^ 64) →
      Ext4MemFile.moveBy base delta =
        if (base : ℤ) + delta < 0 then none else some ((base : ℤ) + delta).toNat := by
    intro base delta hq
    unfold Ext4MemFile.moveBy
    by_cases hneg : delta < 0
    · rw [if_pos hneg]
      by_cases hlow : base < delta.natAbs
      · rw [if_pos hlow,if_pos (by omega)]
      · rw [if_neg hlow,if_neg (by omega)]
        congr 1
        omega
    · have hup : ¬ (base : ℤ) + delta < 0 := by omega
      rw [if_neg hup] at hq
      rw [if_neg hneg,if_neg hup,wrappingAdd_of_lt]
      · congr 1
        omega
      · have := hq _ rfl
        omega
  cases whence with
  | start pos => rfl
  | current delta => exact hmove f.pos delta h
  | fromEnd delta => exact hmove f.data.length delta h

end ByteFile

end ByteArray

section Simulation

variable {m₀ m : Machine} {c inode : ℕ}

def Represents (m₀ : Machine) (c inode : ℕ) (f : ByteFile) (m : Machine) : Prop :=
  FileAt m₀ c inode (ByteFile.view f.data) f.data.length m ∧ f.data.length < 2 ^ 64

theorem exec_represents {f : ByteFile} {op : FileOp} (h : Represents m₀ c inode f m)
    (hpos : (f.exec op).1.pos < 2 ^ 64) :
    Holds (op.exec ⟨c, inode, f.pos⟩) m
      (fun r m' => r = (⟨c, inode, (f.exec op).1.pos⟩, (f.exec op).2) ∧
        Represents m₀ c inode (f.exec op).1 m')
      (Exhausted m₀ c) := by
  obtain ⟨hfile,hlen⟩ := h
  cases op with
  | read bufLen flags =>
    cases hpath : contains flags OpenFlags.O_PATH with
    | true =>
      simp only [FileOp.exec,ByteFile.exec,read_path hpath,hpath,if_true]
      exact holds_pure ⟨rfl,hfile,hlen⟩
    | false =>
      simp only [FileOp.exec,ByteFile.exec,hpath,Bool.false_eq_true,if_false]
      refine (read_shown hpath hlen hfile f.pos bufLen).bind ?_
      rintro _ m' ⟨rfl,hfile'⟩
      refine holds_pure ⟨?_,hfile',hlen⟩
      simp only [ByteFile.shown_view,List.length_take,List.length_drop]
  | write buf flags =>
    cases hpath : contains flags OpenFlags.O_PATH with
    | true =>
      simp only [FileOp.exec,ByteFile.exec,write_path hpath,hpath,if_true]
      exact holds_pure ⟨rfl,hfile,hlen⟩
    | false =>
      simp only [ByteFile.exec,hpath,Bool.false_eq_true,if_false] at hpos
      simp only [FileOp.exec,ByteFile.exec,hpath,Bool.false_eq_true,if_false]
      refine (write_written hpath hfile hpos).bind ?_
      rintro _ m' ⟨rfl,hfile'⟩
      refine holds_pure ⟨rfl,?_,?_⟩
      · rw [ByteFile.view_overwrite,ByteFile.length_overwrite]
        exact hfile'
      · rw [ByteFile.length_overwrite]
        split <;> omega
  | seek whence =>
    have htarget : ∀ q, f.target whence = some q → q < 2 ^ 64 := by
      intro q hq
      simpa only [ByteFile.exec,hq] using hpos
    have hseek := seek_eq (c := c) (iSize_eq hfile.sized) f.pos whence
    rw [ByteFile.seekTarget_eq htarget] at hseek
    simp only [FileOp.exec,ByteFile.exec]
    refine holds_ok (bind_ok hseek) ?_
    cases f.target whence with
    | none => exact ⟨rfl,hfile,hlen⟩
    | some q => exact ⟨rfl,hfile,hlen⟩

theorem runFile_represents : ∀ (ops : List FileOp) (f : ByteFile) (m : Machine),
    Represents m₀ c inode f m → f.Bounded ops →
    Holds (runFile ops ⟨c, inode, f.pos⟩) m (fun r _ => r = f.run ops) (Exhausted m₀ c) := by
  intro ops
  induction ops with
  | nil => exact fun _ _ _ _ => holds_pure rfl
  | cons op ops ih =>
    intro f m h hbounded
    refine (exec_represents h hbounded.2.pos_lt).bind ?_
    rintro _ m' ⟨rfl,h'⟩
    unfold Holds
    rw [bind_ok (iSize_eq h'.1.sized)]
    refine (ih (f.exec op).1 m' h' hbounded.2).bind ?_
    rintro _ m'' rfl
    exact holds_pure rfl

theorem openFile_empty {flags : OpenFlags} {file : OpenFile} {m₁ : Machine}
    (hsized : iSize inode m = .ok 0 m) (h : openFile c inode flags m = .ok file m₁) :
    file = ⟨c, inode, 0⟩ ∧ m₁ = m := by
  cases htrunc : contains flags OpenFlags.O_TRUNC with
  | true =>
    rw [openFile_truncates hsized htrunc] at h
    cases h
  | false =>
    rw [openFile_opens hsized htrunc (by decide),ite_self] at h
    cases h
    exact ⟨rfl,rfl⟩

theorem diskByte_empty {node : Inode} (hnode : m.inodes inode = some node)
    (hread : ∀ offset len, node.read offset len = some []) (x : ℕ) : diskByte m inode x = 0 := by
  have hbytes : ∀ p idx, sectorBytes m ⟨inode,p⟩ idx = [] := by
    simp [sectorBytes,hnode,hread]
  rw [diskByte,hbytes,writeBytes_nil]

/-- An open file on an empty inode is a byte array with a cursor: what every call returns and
the position and the size after it are those of the array. The calls stop only when the pages
of the file have taken every frame that was free. -/
theorem open_file_is_byte_array (m m₁ : Machine) (c inode : ℕ) (node : Inode) (flags : OpenFlags)
    (file : OpenFile) (ops : List FileOp) (inv : CacheInv m) (hcache : m.pageCaches c = ∅)
    (hnode : m.inodes inode = some node) (hsize : node.size = 0)
    (hread : ∀ offset len, node.read offset len = some [])
    (opened : openFile c inode flags m = .ok file m₁) (bounded : ByteFile.Bounded ⟨[], 0⟩ ops) :
    Holds (runFile ops file) m₁ (fun r _ => r = ByteFile.run ⟨[], 0⟩ ops)
      (fun e m' => e = .outOfFrames ∧ m'.frameAllocator.free = [] ∧
        (m'.pageCaches c).size = m.frameAllocator.free.length) := by
  have hsized : Sized m inode 0 := ⟨node,hnode,hsize,fun offset len hc => by
    rw [hread] at hc
    cases hc⟩
  obtain ⟨rfl,rfl⟩ := openFile_empty (iSize_eq hsized) opened
  have hshows : ShowsFile m₁ c inode (ByteFile.view []) := by
    refine ⟨fun p page hp => ?_,fun p hp o ho => diskByte_empty hnode hread _⟩
    rw [hcache] at hp
    cases hp
  have hfile : FileAt m₁ c inode (ByteFile.view []) 0 m₁ :=
    ⟨inv,hshows,hsized,CacheStep.refl c m₁,rfl,fun _ _ => rfl⟩
  refine (runFile_represents ops ⟨[],0⟩ m₁ ⟨hfile,by decide⟩ bounded).onError ?_
  rintro e m' ⟨he,hfree,htotal⟩
  refine ⟨he,hfree,htotal.trans ?_⟩
  rw [supply,hcache,Std.ExtTreeMap.size_empty,Nat.add_zero]

/-- Nothing is cached at boot, whatever files there are. -/
theorem boot_cached (hframes : m.frameAllocator = (bootMachine 64).frameAllocator)
    (hcaches : m.pageCaches = (bootMachine 64).pageCaches) :
    CacheInv m ∧ ∀ c : ℕ, m.pageCaches c = ∅ := by
  obtain ⟨_,_,-,tables,-,hnone⟩ := bootMachine_table (n := 64) (by decide) (by decide)
  have hempty : ∀ c : ℕ, m.pageCaches c = ∅ := fun c => by rw [hcaches,hnone]
  exact ⟨CacheInv.of_empty (hframes ▸ tables.tree.freeInRam) hempty,hempty⟩

/-- A machine whose inodes are all empty. -/
def emptyMachine : Machine :=
  { bootMachine 64 with inodes := fun _ => some ⟨0, fun _ _ => some []⟩ }

/-- A write past the end, and a read over the hole. -/
def holeOps : List FileOp :=
  [.seek (.start 5), .write [1, 2] OpenFlags.O_RDWR, .seek (.current (-3)),
    .read 10 OpenFlags.O_RDWR]

theorem open_file_is_byte_array_hole : ∃ file m₁ m',
    openFile 0 0 OpenFlags.O_RDWR emptyMachine = .ok file m₁ ∧
    ByteFile.Bounded ⟨[], 0⟩ holeOps ∧
    runFile holeOps file m₁ = .ok (ByteFile.run ⟨[], 0⟩ holeOps) m' := by
  have computed : returnsWith (openFile 0 0 OpenFlags.O_RDWR) emptyMachine (fun file m₁ =>
      returnsWith (runFile holeOps file) m₁ fun _ _ => true) = true := by
    decide +kernel
  obtain ⟨file,m₁,opened,computed⟩ := returnsWith_elim computed
  obtain ⟨r,m',hrun,-⟩ := returnsWith_elim computed
  obtain ⟨inv,hempty⟩ := boot_cached (m := emptyMachine) rfl rfl
  have hnode : emptyMachine.inodes 0 = some ⟨0,fun _ _ => some []⟩ := rfl
  have bounded : ByteFile.Bounded ⟨[],0⟩ holeOps := by decide
  have hcache := hempty 0
  refine ⟨file,m₁,m',opened,bounded,?_⟩
  generalize emptyMachine = m at opened inv hnode hcache
  have hr := (open_file_is_byte_array m m₁ 0 0 _ OpenFlags.O_RDWR file holeOps inv hcache hnode rfl
    (fun _ _ => rfl) opened bounded).of_ok hrun
  rw [hrun,hr]

/-- `truncate` returns for no file and no size. -/
theorem truncate_never_returns (m : Machine) (self : OpenFile) (node : Inode) (newSize : ℕ)
    (onDisk : ℕ → Kernel (Except Errno Unit)) (opened : m.inodes self.inode = some node) :
    Ext4MemFile.truncateSteps true onDisk self newSize m =
      .error (if node.size < newSize then .explicit else .deadlock) m ∧
    Ext4MemFile.truncate self newSize m =
      .error (if node.size < newSize then .explicit else .deadlock) m := by
  unfold Ext4MemFile.truncateSteps Ext4MemFile.truncate
  rw [bind_ok (iSize_node opened),bind_ok (iSize_node opened)]
  split <;> exact ⟨rfl,rfl⟩

theorem truncate_empty_stops : emptyMachine.inodes 0 = some ⟨0, fun _ _ => some []⟩ ∧
    Ext4MemFile.truncateSteps true (fun _ => pure (.ok ())) ⟨0, 0, 0⟩ 0 emptyMachine =
      .error .deadlock emptyMachine :=
  ⟨rfl,(truncate_never_returns emptyMachine ⟨0,0,0⟩ _ 0 (fun _ => pure (.ok ())) rfl).1⟩

/-- Growing a file fails even if nothing is locked. -/
theorem grow_empty_stops :
    Ext4MemFile.truncateSteps true (fun _ => pure (.ok ())) ⟨0, 0, 0⟩ 1 emptyMachine =
      .error .explicit emptyMachine ∧
    Ext4MemFile.truncateSteps false (fun _ => pure (.ok ())) ⟨0, 0, 0⟩ 1 emptyMachine =
      .error .explicit emptyMachine := ⟨rfl,rfl⟩

end Simulation

end DuckOs.ByteArrayFiles
