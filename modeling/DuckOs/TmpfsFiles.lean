import DuckOs.ByteArrayFiles
import DuckOs.SimpleFileModel

namespace DuckOs.TmpfsFiles
open ExecutionRules PermissionFlags KernelMachine PageModel PageCaches Function
open Ext4FileModel OpenFiles ByteArrayFiles BootMachine SimpleFileModel

def exec (file : OpenFile) : FileOp → Kernel (OpenFile × Outcome)
  | .read bufLen flags => do
    let r ← SimpleFile.read file bufLen flags
    pure (r.1, .bytes r.2)
  | .write buf flags => do
    let r ← SimpleFile.write file buf flags
    pure (r.1, .count r.2)
  | .seek target => do
    let r ← SimpleFile.seek file target
    pure (r.1, .count r.2)

def runSimple : List FileOp → OpenFile → Kernel (List Observed)
  | [], _ => pure []
  | op :: ops, file => do
    let r ← exec file op
    let size ← iSize file.inode
    let rest ← runSimple ops r.1
    pure (⟨r.2, r.1.pos, size⟩ :: rest)

section Pageless

def answer (pos : ℕ) : FileOp → ℕ × Outcome
  | .read _ flags =>
    (pos, .bytes (if contains flags OpenFlags.O_PATH then .error .EBADF else .ok (0, [])))
  | .write _ flags =>
    (pos, .count (if contains flags OpenFlags.O_PATH then .error .EBADF else .ok 0))
  | .seek target =>
    match Ext4MemFile.seekTarget pos 0 target with
    | none => (pos, .count (.error .EINVAL))
    | some q => (q, .count (.ok q))

def answers : ℕ → List FileOp → List Observed
  | _, [] => []
  | pos, op :: ops => ⟨(answer pos op).2, (answer pos op).1, 0⟩ :: answers (answer pos op).1 ops

structure Pageless (c inode : ℕ) (m : Machine) : Prop where
  noPages : m.pageCaches c = ∅
  node : m.inodes inode = some (SimpleInode.new 0)

variable {m : Machine} {c inode : ℕ} (h : Pageless c inode m)

include h

theorem Pageless.find_page (fileOffset : ℕ) :
    PageCache.findPageAndCreate c fileOffset none m = .ok none m := by
  unfold PageCache.findPageAndCreate
  rw [get_bind,h.noPages,Std.ExtTreeMap.getElem?_empty]
  rfl

theorem Pageless.upgraded : upgrade inode m = .ok (SimpleInode.new 0) m := by
  unfold upgrade
  rw [get_bind,h.node]
  rfl

theorem Pageless.size : iSize inode m = .ok 0 m := iSize_node h.node

theorem Pageless.readLoop (bufLen fuel pos : ℕ) :
    SimpleFile.readLoop c bufLen (fuel + 1) 0 pos [] m = .ok (pos, []) m := by
  unfold SimpleFile.readLoop
  split
  · rfl
  · rw [bind_ok (h.find_page pos)]
    rfl

theorem Pageless.writeLoop (buf : List UInt8) (fuel pos : ℕ) :
    SimpleFile.writeLoop c buf (fuel + 1) 0 pos m = .ok (pos, 0) m := by
  unfold SimpleFile.writeLoop
  split
  · rfl
  · rw [bind_ok (h.find_page pos)]
    rfl

theorem Pageless.exec (pos : ℕ) (op : FileOp) : exec ⟨c, inode, pos⟩ op m =
    .ok (⟨c, inode, (answer pos op).1⟩, (answer pos op).2) m := by
  cases op with
  | read bufLen flags =>
    simp only [TmpfsFiles.exec,answer,SimpleFile.read]
    split
    · rfl
    · rw [bind_assoc,bind_ok h.upgraded,bind_assoc,bind_ok (h.readLoop bufLen bufLen pos)]
      rfl
  | write buf flags =>
    simp only [TmpfsFiles.exec,answer,SimpleFile.write]
    split
    · rfl
    · rw [bind_assoc,bind_ok h.upgraded,bind_assoc,bind_ok (h.writeLoop buf buf.length pos)]
      rfl
  | seek target =>
    simp only [TmpfsFiles.exec,answer,SimpleFile.seek]
    rw [bind_ok (seek_eq h.size pos target)]
    cases Ext4MemFile.seekTarget pos 0 target with
    | none => rfl
    | some q => rfl

theorem Pageless.run (ops : List FileOp) :
    ∀ pos, runSimple ops ⟨c, inode, pos⟩ m = .ok (answers pos ops) m := by
  induction ops with
  | nil => exact fun _ => rfl
  | cons op ops ih =>
    intro pos
    unfold runSimple
    rw [bind_ok (h.exec pos op),bind_ok h.size,bind_ok (ih _)]
    rfl

end Pageless

section ByteArray

/-- The offset of a seek from the start is a machine word. -/
def InWords : FileOp → Prop
  | .seek (.start pos) => pos < 2 ^ 64
  | _ => True

/-- The call stores nothing: it is no write, its buffer is empty, or the file was opened for its
path only. -/
def StoresNothing : FileOp → Prop
  | .write buf flags => buf = [] ∨ contains flags OpenFlags.O_PATH = true
  | _ => True

variable {pos : ℕ} {op : FileOp}

theorem exec_empty (h : StoresNothing op) :
    (ByteFile.exec ⟨[], pos⟩ op).1 = ⟨[], (ByteFile.exec ⟨[], pos⟩ op).1.pos⟩ := by
  cases op with
  | read bufLen flags =>
    simp only [ByteFile.exec]
    split <;> rfl
  | write buf flags =>
    simp only [ByteFile.exec]
    split_ifs with hpath
    · rfl
    · cases h.resolve_right hpath
      rfl
  | seek target =>
    simp only [ByteFile.exec]
    split <;> rfl

theorem answer_seek (target : SeekFrom)
    (h : ∀ q, ByteFile.target ⟨[], pos⟩ target = some q → q < 2 ^ 64) :
    answer pos (.seek target) =
      ((ByteFile.exec ⟨[], pos⟩ (.seek target)).1.pos,
        (ByteFile.exec ⟨[], pos⟩ (.seek target)).2) := by
  have htarget := ByteFile.seekTarget_eq h
  simp only [answer,ByteFile.exec]
  rw [← htarget]
  cases Ext4MemFile.seekTarget pos 0 target with
  | none => rfl
  | some q => rfl

theorem answer_lt (hpos : pos < 2 ^ 64) (hop : InWords op) : (answer pos op).1 < 2 ^ 64 := by
  have hmove : ∀ (base : ℕ) (delta : ℤ) q, base < 2 ^ 64 →
      Ext4MemFile.moveBy base delta = some q → q < 2 ^ 64 := by
    intro base delta q hbase hq
    unfold Ext4MemFile.moveBy at hq
    split at hq
    · split at hq
      · cases hq
      · cases hq
        omega
    · cases hq
      exact Nat.mod_lt _ (by decide)
  cases op with
  | read bufLen flags => exact hpos
  | write buf flags => exact hpos
  | seek target =>
    simp only [answer]
    cases hq : Ext4MemFile.seekTarget pos 0 target with
    | none => exact hpos
    | some q =>
      cases target with
      | start p =>
        cases hq
        exact hop
      | current delta => exact hmove pos delta q hpos hq
      | fromEnd delta => exact hmove 0 delta q (by decide) hq

theorem answer_iff (hpos : pos < 2 ^ 64) (hop : InWords op) :
    answer pos op =
        ((ByteFile.exec ⟨[], pos⟩ op).1.pos, (ByteFile.exec ⟨[], pos⟩ op).2) ↔
      StoresNothing op ∧ (ByteFile.exec ⟨[], pos⟩ op).1.pos < 2 ^ 64 := by
  have hlt := answer_lt hpos hop
  cases op with
  | read bufLen flags =>
    simp only [answer,ByteFile.exec,StoresNothing,true_and]
    split <;> simpa using hpos
  | write buf flags =>
    simp only [answer,ByteFile.exec,StoresNothing]
    cases contains flags OpenFlags.O_PATH with
    | true => simpa using hpos
    | false =>
      cases buf with
      | nil => simpa using hpos
      | cons byte buf => simp
  | seek target =>
    refine ⟨fun heq => ⟨trivial,?_⟩,fun h => answer_seek target fun q hq => ?_⟩
    · rw [heq] at hlt
      exact hlt
    · have := h.2
      simpa only [ByteFile.exec,hq] using this

theorem answers_iff (ops : List FileOp) : ∀ pos, pos < 2 ^ 64 → (∀ op ∈ ops, InWords op) →
    (answers pos ops = ByteFile.run ⟨[], pos⟩ ops ↔
      (∀ op ∈ ops, StoresNothing op) ∧ ByteFile.Bounded ⟨[], pos⟩ ops) := by
  induction ops with
  | nil => exact fun pos hpos _ => ⟨fun _ => ⟨by simp,hpos⟩,fun _ => rfl⟩
  | cons op ops ih =>
    intro pos hpos hops
    have hop := hops op (List.mem_cons_self ..)
    have hrest : ∀ op' ∈ ops, InWords op' := fun op' h => hops op' (List.mem_cons_of_mem _ h)
    have hstep := answer_iff hpos hop
    have hnext := answer_lt hpos hop
    rw [List.forall_mem_cons,answers,ByteFile.run,ByteFile.Bounded,List.cons.injEq,
      Observed.mk.injEq]
    constructor
    · rintro ⟨⟨hout,hnew,hsize⟩,hrun⟩
      obtain ⟨stores,hword⟩ := hstep.mp (Prod.ext hnew hout)
      have harray : (ByteFile.exec ⟨[],pos⟩ op).1 = ⟨[],(answer pos op).1⟩ := by
        rw [hnew]
        exact exec_empty stores
      rw [harray] at hrun ⊢
      obtain ⟨hall,hbounded⟩ := (ih _ hnext hrest).mp hrun
      exact ⟨⟨stores,hall⟩,hpos,hbounded⟩
    · rintro ⟨⟨stores,hall⟩,-,hbounded⟩
      have heq := hstep.mpr ⟨stores,hbounded.pos_lt⟩
      have hnew : (answer pos op).1 = (ByteFile.exec ⟨[],pos⟩ op).1.pos := congrArg Prod.fst heq
      have harray : (ByteFile.exec ⟨[],pos⟩ op).1 = ⟨[],(answer pos op).1⟩ := by
        rw [hnew]
        exact exec_empty stores
      refine ⟨⟨congrArg Prod.snd heq,hnew,?_⟩,?_⟩
      · rw [harray]
        rfl
      · rw [harray] at hbounded ⊢
        exact (ih _ hnext hrest).mpr ⟨hall,hbounded⟩

end ByteArray

section Created

variable {m : Machine} {c inode : ℕ} {flags : OpenFlags} {file : OpenFile} {m₁ : Machine}

theorem createAndOpen_pageless
    (h : SimpleDentry.createAndOpen c inode flags m = .ok file m₁) :
    file = ⟨c, inode, 0⟩ ∧ Pageless c inode m₁ := by
  let created : Machine := { m with
    inodes := update m.inodes inode (some (SimpleInode.new 0))
    pageCaches := update m.pageCaches c ∅ }
  have hnode : created.inodes inode = some (SimpleInode.new 0) := update_self ..
  have hpages : created.pageCaches c = ∅ := update_self ..
  have hopen : openFile c inode flags created = .ok file m₁ := h
  obtain ⟨rfl,rfl⟩ := openFile_empty (iSize_node hnode) hopen
  exact ⟨rfl,hpages,hnode⟩

end Created

/-- A new file on a tmpfs is a byte array with a cursor exactly along those calls that store
nothing and do not leave the machine words. -/
theorem tmpfs_file_iff (m m₁ : Machine) (c inode : ℕ) (flags : OpenFlags) (file : OpenFile)
    (ops : List FileOp) (words : ∀ op ∈ ops, InWords op)
    (opened : SimpleDentry.createAndOpen c inode flags m = .ok file m₁) :
    (∃ m', runSimple ops file m₁ = .ok (ByteFile.run ⟨[], 0⟩ ops) m') ↔
      (∀ op ∈ ops, StoresNothing op) ∧ ByteFile.Bounded ⟨[], 0⟩ ops := by
  obtain ⟨rfl,pageless⟩ := createAndOpen_pageless opened
  rw [← answers_iff ops 0 (by decide) words,pageless.run ops 0]
  constructor
  · rintro ⟨m',hrun⟩
    exact (EStateM.Result.ok.inj hrun).1
  · intro heq
    exact ⟨m₁,by rw [heq]⟩

/-- Seeks and reads of a new file, which has nothing to read. -/
def lookingOps : List FileOp :=
  [.seek (.start 5), .read 10 OpenFlags.O_RDWR, .seek (.fromEnd 0), .write [] OpenFlags.O_RDWR]

theorem tmpfs_file_looks : ∃ file m₁ m',
    SimpleDentry.createAndOpen 0 0 OpenFlags.O_RDWR (bootMachine 64) = .ok file m₁ ∧
    runSimple lookingOps file m₁ = .ok (ByteFile.run ⟨[], 0⟩ lookingOps) m' := by
  have computed : returnsWith (SimpleDentry.createAndOpen 0 0 OpenFlags.O_RDWR) (bootMachine 64)
      (fun _ _ => true) = true := by
    decide +kernel
  obtain ⟨file,m₁,opened,-⟩ := returnsWith_elim computed
  have words : ∀ op ∈ lookingOps, InWords op := by
    simp [lookingOps,InWords]
  have stores : ∀ op ∈ lookingOps, StoresNothing op := by
    simp [lookingOps,StoresNothing]
  obtain ⟨m',hrun⟩ := (tmpfs_file_iff _ m₁ 0 0 OpenFlags.O_RDWR file lookingOps words opened).mpr
    ⟨stores,by decide⟩
  exact ⟨file,m₁,m',opened,hrun⟩

/-- One byte is written to a new file, and the call reports that it wrote none. -/
theorem tmpfs_write_lost : ∃ file m₁ m',
    SimpleDentry.createAndOpen 0 0 OpenFlags.O_RDWR (bootMachine 64) = .ok file m₁ ∧
    runSimple [.write [1] OpenFlags.O_RDWR] file m₁ = .ok [⟨.count (.ok 0), 0, 0⟩] m' ∧
    ByteFile.run ⟨[], 0⟩ [.write [1] OpenFlags.O_RDWR] = [⟨.count (.ok 1), 1, 1⟩] := by
  have computed : returnsWith (SimpleDentry.createAndOpen 0 0 OpenFlags.O_RDWR) (bootMachine 64)
      (fun _ _ => true) = true := by
    decide +kernel
  obtain ⟨file,m₁,opened,-⟩ := returnsWith_elim computed
  obtain ⟨rfl,pageless⟩ := createAndOpen_pageless opened
  exact ⟨_,m₁,m₁,opened,pageless.run _ 0,rfl⟩

end DuckOs.TmpfsFiles
