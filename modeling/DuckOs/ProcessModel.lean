import DuckOs.VirtMemoryModel

/-! The tasks of one hart: their control blocks, the run queue and the task that runs. Clone, exit,
wait and the scheduler are steps of one machine. The memory, the descriptors and the trap contexts
of the tasks have their own models; a task only refers to them here. -/
namespace DuckOs.ProcessModel
open AddressModel PermissionFlags
open VirtMemoryModel (Errno)

inductive TaskStatus where
  | Running
  | Ready
  | Dead
  | Interruptible
  | Exit
  deriving DecidableEq, Repr

/-- A task is referred to by its number; `parent` is a weak reference. -/
structure PCBInner where
  cwd : List Char
  ppid : ℕ
  exitCode : ℤ
  parent : Option ℕ
  child : List ℕ
  status : TaskStatus
  deriving DecidableEq

structure PCB where
  tgid : ℕ
  pid : ℕ
  /-- the address space and the descriptor table that the task shares or owns -/
  vm : ℕ
  fdTable : ℕ
  inner : PCBInner
  deriving DecidableEq

abbrev CloneFlags := BitVec 32

namespace CloneFlags

def SIGCHLD : CloneFlags := 0x11#32
def CLONE_VM : CloneFlags := 1#32 <<< 8
def CLONE_FILES : CloneFlags := 1#32 <<< 10
def CLONE_SIGHAND : CloneFlags := 1#32 <<< 11
def CLONE_PARENT : CloneFlags := 1#32 <<< 15
def CLONE_THREAD : CloneFlags := 1#32 <<< 16
def CLONE_SETTLS : CloneFlags := 1#32 <<< 19
def CLONE_PARENT_SETTID : CloneFlags := 1#32 <<< 20
def CLONE_CHILD_CLEARTID : CloneFlags := 1#32 <<< 21
def CLONE_CHILD_SETTID : CloneFlags := 1#32 <<< 24

def valid : CloneFlags :=
  SIGCHLD ||| CLONE_VM ||| CLONE_FILES ||| CLONE_PARENT ||| CLONE_THREAD ||| CLONE_SETTLS |||
    CLONE_PARENT_SETTID ||| CLONE_CHILD_CLEARTID ||| CLONE_CHILD_SETTID ||| CLONE_SIGHAND

end CloneFlags

/-- Unsupported flags stop the kernel. -/
def checkCloneFlags (flags : CloneFlags) : Bool := flags ||| CloneFlags.valid == CloneFlags.valid

/-- `from_bits` of the options of `wait4`. -/
def wnohang : ℕ := 1

def validWaitOptions (options : ℕ) : Bool := options ||| 0b1011 == 0b1011

/-- The tasks are numbered from `0` in the order of their creation. -/
structure Tasks where
  count : ℕ
  pcb : ℕ → PCB
  /-- `SCHEDULE.task_queue` -/
  queue : List ℕ
  current : Option ℕ
  /-- `ORIGIN_TASK` -/
  origin : ℕ
  /-- the task whose exit is under way, with the children it has not left yet -/
  exiting : Option (ℕ × List ℕ)
  /-- the tasks that some `wait4` has removed -/
  waited : List ℕ

namespace Tasks

def inner (t : Tasks) (i : ℕ) : PCBInner := (t.pcb i).inner

def setInner (t : Tasks) (i : ℕ) (f : PCBInner → PCBInner) : Tasks :=
  { t with pcb := Function.update t.pcb i { t.pcb i with inner := f (t.inner i) } }

def setStatus (t : Tasks) (i : ℕ) (status : TaskStatus) : Tasks :=
  t.setInner i fun inner => { inner with status := status }

def addTask (t : Tasks) (p : PCB) : Tasks :=
  { t with count := t.count + 1, pcb := Function.update t.pcb t.count p }

def pushTaskToSchedule (t : Tasks) (i : ℕ) : Tasks := { t with queue := t.queue ++ [i] }

/-- A control block lives while something refers to it. -/
def Referenced (t : Tasks) (i : ℕ) : Prop :=
  i = t.origin ∨ i ∈ t.queue ∨ t.current = some i ∨ t.exiting.map Prod.fst = some i ∨
    ∃ j ∈ List.range t.count, i ∈ (t.inner j).child

instance (t : Tasks) (i : ℕ) : Decidable (t.Referenced i) :=
  inferInstanceAs (Decidable (_ ∨ _))

def maxPid : ℕ := 1024

/-- A pid is given back when its control block is dropped; the bitmap gives its lowest bit. -/
def allocPid (t : Tasks) : Option ℕ :=
  (List.range' 2 (maxPid - 2)).find? fun pid =>
    ∀ i ∈ List.range t.count, t.Referenced i → (t.pcb i).pid ≠ pid

/-- A task loaded from a file: it has no parent. -/
def elfDataToPcb (t : Tasks) (cwd : List Char) (pid : ℕ) : PCB where
  tgid := pid
  pid := pid
  vm := t.count
  fdTable := t.count
  inner := ⟨cwd, 1, 0, none, [], .Ready⟩

def initTaskAndPush (t : Tasks) (cwd : List Char) : Except Panic Tasks :=
  match t.allocPid with
  | none => .error .unwrapNone
  | some pid => .ok ((t.addTask (t.elfDataToPcb cwd pid)).pushTaskToSchedule t.count)

/-- The new control block of `from_clone`. -/
def clonedPcb (t : Tasks) (self : ℕ) (flags : CloneFlags) (pid : ℕ) : PCB where
  tgid := if contains flags CloneFlags.CLONE_THREAD then (t.pcb self).tgid else pid
  pid := pid
  vm := if contains flags CloneFlags.CLONE_VM then (t.pcb self).vm else t.count
  fdTable := if contains flags CloneFlags.CLONE_FILES then (t.pcb self).fdTable else t.count
  inner :=
    { cwd := (t.inner self).cwd
      ppid := if contains flags CloneFlags.CLONE_PARENT then (t.inner self).ppid
        else (t.pcb self).pid
      exitCode := 0
      parent := if contains flags CloneFlags.CLONE_PARENT then (t.inner self).parent else some self
      child := []
      status := .Ready }

/-- A sibling is in no list of children. -/
def fromClone (t : Tasks) (self : ℕ) (flags : CloneFlags) : Except Panic (ℕ × Tasks) :=
  match t.allocPid with
  | none => .error .unwrapNone
  | some pid =>
    let added := t.addTask (t.clonedPcb self flags pid)
    let linked := if contains flags CloneFlags.CLONE_PARENT then added
      else added.setInner self fun inner => { inner with child := inner.child ++ [t.count] }
    .ok (pid, linked.pushTaskToSchedule t.count)

def sysClone (t : Tasks) (flags : CloneFlags) : Except Panic (ℕ × Tasks) :=
  if checkCloneFlags flags then
    match t.current with
    | none => .error .unwrapNone
    | some self => t.fromClone self flags
  else .error .explicit

/-- One round of the loop of `run_task`: the head of the queue gets the hart. -/
def runTask (t : Tasks) : Tasks :=
  match t.queue with
  | [] => t
  | task :: rest => { (t.setStatus task .Running) with queue := rest, current := some task }

def suspendCurrentTask (t : Tasks) : Tasks :=
  match t.current with
  | none => t
  | some task =>
    { (t.setStatus task .Ready).pushTaskToSchedule task with current := none }

/-- `exit_current_task` up to the loop over the children. -/
def exitCurrentTask (t : Tasks) (exitCode : ℤ) : Except Panic Tasks :=
  match t.current with
  | none => .error .unwrapNone
  | some task =>
    let dead := t.setInner task fun inner => { inner with status := .Dead, exitCode := exitCode }
    .ok { dead with current := none, exiting := some (task, (t.inner task).child) }

/-- Both locks are free, the exiting task holding its own and the first one being held when the
second is tried. -/
def canHandOver (t : Tasks) (task child : ℕ) : Bool :=
  child != task && t.origin != task && t.origin != child

def handOver (t : Tasks) (child : ℕ) : Tasks :=
  (t.setInner child fun inner =>
    { inner with parent := some t.origin, ppid := 0 }).setInner t.origin
    fun inner => { inner with child := inner.child ++ [child] }

/-- One round of the loop over the children, or what follows it. The inner `loop` has no exit: the
round after a hand-over is about the same child. -/
def exitRound (t : Tasks) : Tasks :=
  match t.exiting with
  | none => t
  | some (task, []) =>
    { t.setInner task fun inner => { inner with child := [] } with exiting := none }
  | some (task, child :: _) => if t.canHandOver task child then t.handOver child else t

end Tasks

inductive ChildStatus where
  | Success (pid : ℕ)
  | NotZombie
  | NotFound
  deriving DecidableEq

namespace Tasks

/-- The lock of a control block is tried; the caller of `waitpid` holds its own. -/
def isDead (t : Tasks) (self child : ℕ) : Bool := child != self && (t.inner child).status == .Dead

/-- The four loops of `waitpid` differ in whom they select and in the status they start with. -/
def scan (t : Tasks) (self : ℕ) (selects : PCB → Bool) :
    ℕ → List ℕ → ChildStatus → ChildStatus × Option ℕ
  | _, [], ret => (ret, none)
  | idx, child :: rest, ret =>
    if selects (t.pcb child) then
      if t.isDead self child then (.Success (t.pcb child).pid, some idx)
      else scan t self selects (idx + 1) rest .NotZombie
    else scan t self selects (idx + 1) rest ret

def selector (t : Tasks) (self : ℕ) (pid : ℤ) : (PCB → Bool) × ChildStatus :=
  if pid < -1 then (fun p => p.tgid == pid.natAbs, .NotFound)
  else if pid = -1 then (fun _ => true, .NotZombie)
  else if pid = 0 then (fun p => p.tgid == (t.pcb self).tgid, .NotFound)
  else (fun p => p.pid == pid.toNat, .NotFound)

/-- The exit code in the second byte of an `i32`. -/
def statusWord (exitCode : ℤ) : ℤ := (exitCode * 256).bmod (2 ^ 32)

/-- The status found, the word stored for the caller, and the tasks after it. -/
def waitpid (t : Tasks) (pid : ℤ) : Except Panic (ChildStatus × Option ℤ × Tasks) :=
  match t.current with
  | none => .error .explicit
  | some self =>
    let (selects, start) := t.selector self pid
    match t.scan self selects 0 (t.inner self).child start with
    | (ret, none) => .ok (ret, none, t)
    | (ret, some idx) =>
      match (t.inner self).child[idx]? with
      | none => .error .explicit
      | some child =>
        let removed := t.setInner self fun inner => { inner with child := inner.child.eraseIdx idx }
        .ok (ret, some (statusWord (t.inner child).exitCode),
          { removed with waited := t.waited ++ [child] })

/-- One round of the loop of `sys_wait4`: the value returned, or `none` if the caller gave up the
hart to try again. -/
def sysWait4 (t : Tasks) (pid : ℤ) (options : ℕ) :
    Except Panic (Option (Except Errno ℕ) × Tasks) :=
  if validWaitOptions options then
    match t.waitpid pid with
    | .error e => .error e
    | .ok (.Success pid, _, t') => .ok (some (.ok pid), t')
    | .ok (.NotFound, _, t') => .ok (some (.error .EINVAL), t')
    | .ok (.NotZombie, _, t') =>
      if options &&& wnohang = wnohang then .ok (some (.ok 0), t')
      else .ok (none, t'.suspendCurrentTask)
  else .error .unwrapNone

end Tasks

inductive TaskOp where
  | runTask
  | initTask (cwd : List Char)
  | suspend
  | clone (flags : CloneFlags)
  | exit (exitCode : ℤ)
  | exitRound
  | wait4 (pid : ℤ) (options : ℕ)

def TaskOp.step (t : Tasks) : TaskOp → Except Panic Tasks
  | .runTask => .ok t.runTask
  | .initTask cwd => t.initTaskAndPush cwd
  | .suspend => .ok t.suspendCurrentTask
  | .clone flags => (t.sysClone flags).map Prod.snd
  | .exit exitCode => t.exitCurrentTask exitCode
  | .exitRound => .ok t.exitRound
  | .wait4 pid options => (t.sysWait4 pid options).map Prod.snd

/-- The scheduler runs while no task has the hart, and a task makes one call at a time. Another
program is started when the queue is empty. -/
def TaskOp.Enabled (t : Tasks) : TaskOp → Prop
  | .runTask => t.current = none ∧ t.exiting = none
  | .initTask _ => t.current = none ∧ t.exiting = none ∧ t.queue = []
  | .suspend | .clone _ | .exit _ | .wait4 _ _ => t.current ≠ none
  | .exitRound => t.exiting ≠ none

instance (t : Tasks) (op : TaskOp) : Decidable (op.Enabled t) :=
  match op with
  | .runTask => inferInstanceAs (Decidable (t.current = none ∧ t.exiting = none))
  | .initTask _ =>
    inferInstanceAs (Decidable (t.current = none ∧ t.exiting = none ∧ t.queue = []))
  | .suspend | .clone _ | .exit _ | .wait4 _ _ => inferInstanceAs (Decidable (t.current ≠ none))
  | .exitRound => inferInstanceAs (Decidable (t.exiting ≠ none))

/-- After `init_origin_task`: one task, with the first pid. -/
def Tasks.booted (cwd : List Char) : Tasks where
  count := 1
  pcb := fun _ => ⟨2, 2, 0, 0, ⟨cwd, 1, 0, none, [], .Ready⟩⟩
  queue := [0]
  current := none
  origin := 0
  exiting := none
  waited := []

section Frames

namespace Tasks

variable (t : Tasks) (i j : ℕ) (f : PCBInner → PCBInner)

@[simp] theorem inner_setInner_self : (t.setInner i f).inner i = f (t.inner i) := by
  simp [setInner,inner]

theorem inner_setInner_of_ne {i j : ℕ} (h : j ≠ i) : (t.setInner i f).inner j = t.inner j := by
  simp [setInner,inner,h]

@[simp] theorem pid_setInner : ((t.setInner i f).pcb j).pid = (t.pcb j).pid := by
  unfold setInner
  by_cases h : j = i
  · simp [h]
  · simp [h]


@[simp] theorem inner_pushTaskToSchedule : (t.pushTaskToSchedule i).inner j = t.inner j := rfl
@[simp] theorem pcb_pushTaskToSchedule : (t.pushTaskToSchedule i).pcb = t.pcb := rfl

theorem pcb_addTask_of_ne (p : PCB) {j : ℕ} (h : j ≠ t.count) : (t.addTask p).pcb j = t.pcb j := by
  simp [addTask,h]

theorem inner_addTask_self (p : PCB) : (t.addTask p).inner t.count = p.inner := by
  simp [addTask,inner]

theorem inner_addTask_of_ne (p : PCB) {j : ℕ} (h : j ≠ t.count) :
    (t.addTask p).inner j = t.inner j := by
  simp [addTask,inner,h]

end Tasks

end Frames

section Cases

variable {t t' : Tasks}

/-- The child that `scan` finds is dead. -/
theorem scan_dead (t : Tasks) (self : ℕ) (selects : PCB → Bool) :
    ∀ (children : List ℕ) (idx : ℕ) (start ret : ChildStatus) (found : ℕ),
    t.scan self selects idx children start = (ret, some found) →
    idx ≤ found ∧ ∃ child, children[found - idx]? = some child ∧ t.isDead self child = true := by
  intro children
  induction children with
  | nil => intro idx start ret found h; cases h
  | cons child rest ih =>
    intro idx start ret found h
    unfold Tasks.scan at h
    have later : ∀ start', t.scan self selects (idx + 1) rest start' = (ret, some found) →
        idx ≤ found ∧ ∃ c, (child :: rest)[found - idx]? = some c ∧ t.isDead self c = true := by
      intro start' h'
      obtain ⟨hle,c,hc,hd⟩ := ih _ _ _ _ h'
      refine ⟨by omega,c,?_,hd⟩
      rw [show found - idx = (found - (idx + 1)) + 1 by omega,List.getElem?_cons_succ]
      exact hc
    split at h
    · split_ifs at h with hd
      · cases h
        exact ⟨Nat.le_refl _,child,by simp,hd⟩
      · exact later _ h
    · exact later _ h

/-- `waitpid` leaves the tasks as they are, or takes one dead child out of the caller's list. -/
theorem waitpid_cases {pid : ℤ} {ret : ChildStatus} {word : Option ℤ}
    (h : t.waitpid pid = .ok (ret, word, t')) :
    ∃ self, t.current = some self ∧ (t' = t ∨ ∃ idx child,
      (t.inner self).child[idx]? = some child ∧ (t.inner child).status = .Dead ∧
      t' = { t.setInner self fun inner => { inner with child := inner.child.eraseIdx idx } with
        waited := t.waited ++ [child] }) := by
  unfold Tasks.waitpid at h
  split at h
  · cases h
  · rename_i self hself
    refine ⟨self,hself,?_⟩
    dsimp only at h
    split at h
    · cases h
      exact .inl rfl
    · rename_i idx hscan
      split at h
      · cases h
      · rename_i child hchild
        cases h
        obtain ⟨-,child',hchild',hdead⟩ := scan_dead _ _ _ _ _ _ _ _ hscan
        rw [Nat.sub_zero,hchild] at hchild'
        obtain rfl := Option.some.inj hchild'
        refine .inr ⟨idx,child,hchild,?_,rfl⟩
        simp only [Tasks.isDead,Bool.and_eq_true,beq_iff_eq] at hdead
        exact hdead.2

/-- A round of `wait4` is a `waitpid`, after which the caller may give up the hart. -/
theorem wait4_cases {pid : ℤ} {options : ℕ} (h : (TaskOp.wait4 pid options).step t = .ok t') :
    ∃ ret word t₁, t.waitpid pid = .ok (ret, word, t₁) ∧
      (t' = t₁ ∨ t' = t₁.suspendCurrentTask) := by
  unfold TaskOp.step Tasks.sysWait4 at h
  dsimp only at h
  split at h
  · split at h
    · cases h
    · rename_i hw
      cases h
      exact ⟨_,_,_,hw,.inl rfl⟩
    · rename_i hw
      cases h
      exact ⟨_,_,_,hw,.inl rfl⟩
    · rename_i hw
      split at h
      · cases h
        exact ⟨_,_,_,hw,.inl rfl⟩
      · cases h
        exact ⟨_,_,_,hw,.inr rfl⟩
  · cases h

theorem clone_cases {flags : CloneFlags} (h : (TaskOp.clone flags).step t = .ok t') :
    ∃ self pid, t.current = some self ∧ t.allocPid = some pid ∧
      t' = (if contains flags CloneFlags.CLONE_PARENT then t.addTask (t.clonedPcb self flags pid)
        else (t.addTask (t.clonedPcb self flags pid)).setInner self fun inner =>
          { inner with child := inner.child ++ [t.count] }).pushTaskToSchedule t.count := by
  unfold TaskOp.step Tasks.sysClone at h
  dsimp only at h
  split at h
  · split at h
    · cases h
    · rename_i self hself
      unfold Tasks.fromClone at h
      split at h
      · cases h
      · rename_i pid hpid
        cases h
        exact ⟨self,pid,hself,hpid,rfl⟩
  · cases h

theorem initTask_cases {cwd : List Char} (h : (TaskOp.initTask cwd).step t = .ok t') :
    ∃ pid, t' = (t.addTask (t.elfDataToPcb cwd pid)).pushTaskToSchedule t.count := by
  unfold TaskOp.step Tasks.initTaskAndPush at h
  dsimp only at h
  split at h
  · cases h
  · cases h
    exact ⟨_,rfl⟩

theorem exit_cases {exitCode : ℤ} (h : (TaskOp.exit exitCode).step t = .ok t') :
    ∃ task, t.current = some task ∧ t' = { t.setInner task fun inner =>
        { inner with status := .Dead, exitCode := exitCode } with
      current := none, exiting := some (task, (t.inner task).child) } := by
  unfold TaskOp.step Tasks.exitCurrentTask at h
  dsimp only at h
  split at h
  · cases h
  · rename_i task htask
    cases h
    exact ⟨task,htask,rfl⟩

end Cases

end DuckOs.ProcessModel
