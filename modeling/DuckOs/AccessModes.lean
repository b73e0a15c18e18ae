import DuckOs.FdTables

namespace DuckOs.AccessModes
open AddressModel PermissionFlags VfsModel FdTables FdTables.FdTable
open Ext4FileModel (OpenFlags)

variable {σ : Type}

inductive IoCall where
  | read (count : ℕ)
  | write (buf : List UInt8)

def IoCall.count : IoCall → ℕ
  | .read count => count
  | .write buf => buf.length

def IoCall.passes (flags : OpenFlags) : IoCall → Bool
  | .read _ => flags.isReadable
  | .write _ => flags.isWritable

/-- What `Pipe::read` and `Pipe::write` assert of the end. -/
def IoCall.status : IoCall → PipeStatus
  | .read _ => .Readable
  | .write _ => .Writable

/-- `direction` is the failed assertion of `Pipe::read` or `Pipe::write`. -/
inductive Stop where
  | fault (f : Fault)
  | direction
  deriving DecidableEq

/-- What the methods behind `dyn File` do after their first checks: the number returned with the
bytes read, or `none` for the `EACCES` of a file of `/proc`. The files of `checksPath` refuse
`O_PATH`. -/
structure FileMethods (σ : Type) where
  checksPath : ℕ → Bool
  transfer : FileRef → IoCall → EStateM Panic σ (Option (ℕ × List UInt8))

def FileMethods.run (files : FileMethods σ) (file : FileRef) (call : IoCall) :
    EStateM Stop σ (ℕ × List UInt8) := fun s =>
  match files.transfer file call s with
  | .ok (some moved) s' => .ok moved s'
  | .ok none s' => .error (.fault (.errno .EACCES)) s'
  | .error p s' => .error (.fault (.panic p)) s'

/-- The file is one that refuses these flags. -/
def FileMethods.refuses (files : FileMethods σ) (flags : OpenFlags) : FileRef → Bool
  | .opened id => files.checksPath id && contains flags OpenFlags.O_PATH
  | _ => false

/-- `File::read` and `File::write`. -/
def FileMethods.call (files : FileMethods σ) (info : FdInfo) (call : IoCall) :
    EStateM Stop σ (ℕ × List UInt8) :=
  match info.file with
  | .pipe _ status => if status = call.status then files.run info.file call else throw .direction
  | _ =>
    if files.refuses info.flags info.file then throw (.fault (.errno .EBADF))
    else files.run info.file call

/-- What `sys_read` and `sys_write` have in common. -/
def ioCall (files : FileMethods σ) (t : FdTable) (fd : ℕ) (call : IoCall) :
    EStateM Stop σ (ℕ × List UInt8) :=
  match t.lookup fd with
  | none => throw (.fault (.errno .EBADF))
  | some info =>
    if call.passes info.flags = false then throw (.fault (.errno .EBADF))
    else if call.count = 0 then pure (0, [])
    else files.call info call

def sysRead (files : FileMethods σ) (t : FdTable) (fd count : ℕ) :
    EStateM Stop σ (ℕ × List UInt8) := ioCall files t fd (.read count)

def sysWrite (files : FileMethods σ) (t : FdTable) (fd : ℕ) (buf : List UInt8) :
    EStateM Stop σ (ℕ × List UInt8) := ioCall files t fd (.write buf)

section Access

def accessMode (flags : OpenFlags) : OpenFlags := flags &&& 3#32

/-- The descriptor was opened for the call. -/
def IoCall.Opened (flags : OpenFlags) : IoCall → Prop
  | .read _ => accessMode flags = OpenFlags.O_RDONLY ∨ accessMode flags = OpenFlags.O_RDWR
  | .write _ => accessMode flags = OpenFlags.O_WRONLY ∨ accessMode flags = OpenFlags.O_RDWR

/-- A call for which the descriptor was not opened is refused and changes nothing; no direction
assertion fails. -/
def AccessKept (opened : Prop) (s : σ) (r : EStateM.Result Stop σ (ℕ × List UInt8)) : Prop :=
  (¬ opened → r = .error (.fault (.errno .EBADF)) s) ∧ ∀ s', r ≠ .error .direction s'

/-- The descriptor is a pipe's end for the other direction. -/
def WrongEnd (file : FileRef) (call : IoCall) : Prop :=
  ∃ id status, file = .pipe id status ∧ status ≠ call.status

variable (files : FileMethods σ) (info : FdInfo) (call : IoCall) (s : σ)

theorem call_wrongEnd (h : WrongEnd info.file call) :
    files.call info call s = .error .direction s := by
  obtain ⟨id,status,hfile,hstatus⟩ := h
  simp only [FileMethods.call,hfile,if_neg hstatus]
  rfl

theorem call_refused (h : files.refuses info.flags info.file = true) :
    files.call info call s = .error (.fault (.errno .EBADF)) s := by
  unfold FileMethods.call
  cases hfile : info.file with
  | opened id =>
    rw [hfile] at h
    simp only [h,if_true]
    rfl
  | _ =>
    rw [hfile] at h
    cases h

theorem call_run (hend : ¬ WrongEnd info.file call)
    (h : files.refuses info.flags info.file = false) :
    files.call info call = files.run info.file call := by
  unfold FileMethods.call
  cases hfile : info.file with
  | pipe id status =>
    have hstatus : status = call.status := by
      by_contra hne
      exact hend ⟨id,status,hfile,hne⟩
    simp only [if_pos hstatus]
  | _ =>
    rw [hfile] at h
    simp only [h]
    rfl

theorem run_never (file : FileRef) (s' : σ) :
    files.run file call s ≠ .error .direction s' ∧
      files.run file call s ≠ .error (.fault (.errno .EBADF)) s' := by
  unfold FileMethods.run
  rcases files.transfer file call s with ⟨_ | moved,s₁⟩ | ⟨p,s₁⟩ <;> simp

theorem call_kept_iff : AccessKept (call.Opened info.flags) s (files.call info call s) ↔
    (call.Opened info.flags ∧ ¬ WrongEnd info.file call) ∨
      files.refuses info.flags info.file = true := by
  unfold AccessKept
  by_cases hend : WrongEnd info.file call
  · have hnot : files.refuses info.flags info.file ≠ true := by
      obtain ⟨id,status,hfile,-⟩ := hend
      simp [FileMethods.refuses,hfile]
    simp [call_wrongEnd files info call s hend,hend,hnot]
  · by_cases hpath : files.refuses info.flags info.file = true
    · simp [call_refused files info call s hpath,hpath]
    · have hrun := run_never files call s info.file
      rw [call_run files info call hend (by simpa using hpath)]
      simp [hrun,hend,hpath]

variable {files info call s}

/-- The calls respect the access mode exactly when the test of the flags refuses the call, when the
descriptor was opened for it and no bytes are asked of a pipe's wrong end, or when the file itself
refuses its flags. -/
theorem access_kept_iff {t : FdTable} {fd : ℕ} (h : t.lookup fd = some info) :
    AccessKept (call.Opened info.flags) s (ioCall files t fd call s) ↔
      call.passes info.flags = false ∨
      (call.Opened info.flags ∧ (call.count = 0 ∨ ¬ WrongEnd info.file call)) ∨
      (call.count ≠ 0 ∧ files.refuses info.flags info.file = true) := by
  simp only [ioCall,h]
  by_cases hpass : call.passes info.flags = false
  · simp [hpass,AccessKept,throw,throwThe,MonadExceptOf.throw,EStateM.throw]
  · by_cases hcount : call.count = 0
    · simp [hpass,hcount,AccessKept,pure,EStateM.pure]
    · rw [if_neg hpass,if_neg hcount,call_kept_iff files info call s]
      simp [hpass,hcount]

/-- Files that move nothing. -/
def silent : FileMethods Unit := ⟨fun _ => true, fun _ _ => pure (some (0, []))⟩

theorem access_kept_stdin : AccessKept ((IoCall.read 1).Opened OpenFlags.O_RDONLY) ()
    (ioCall silent initFdtable 0 (.read 1) ()) := by
  have h : initFdtable.lookup 0 = some ⟨.stdin,OpenFlags.O_RDONLY⟩ := rfl
  exact (access_kept_iff h).mpr
    (.inr (.inl ⟨.inl rfl,.inr fun ⟨_,_,hfile,_⟩ => nomatch hfile⟩))

/-- The ends that `pipe2` makes. -/
def piped : TableM ℕ := do
  let _ ← insertGetFd ⟨.pipe 0 .Readable, 0#32 ||| OpenFlags.O_RDONLY⟩
  insertGetFd ⟨.pipe 0 .Writable, 0#32 ||| OpenFlags.O_WRONLY⟩

/-- `read` on the end for writing fails the assertion. -/
theorem write_end_read_stops : ∃ t, piped initFdtable = .ok 4 t ∧
    sysRead silent t 4 1 () = .error .direction () ∧
    ¬ AccessKept ((IoCall.read 1).Opened OpenFlags.O_WRONLY) () (sysRead silent t 4 1 ()) :=
  ⟨_,rfl,rfl,fun h => h.2 () rfl⟩

end Access

end DuckOs.AccessModes
