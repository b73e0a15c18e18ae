import DuckOs.ProcessModel

namespace DuckOs.RoundRobin
open ExecutionRules AddressModel ProcessModel

variable {op : TaskOp} {i j a : ℕ} {s s' : Tasks × List ℕ} {pid : ℤ} {t t' : Tasks}

section Steps

def turn (t : Tasks) : TaskOp → List ℕ
  | .runTask => t.queue.head?.toList
  | _ => []

/-- A step, with the turns so far recorded. -/
def exec (op : TaskOp) (_ : Unit) : EStateM Panic (Tasks × List ℕ) Unit := fun s =>
  match op.step s.1 with
  | .ok t => .ok () (t, s.2 ++ turn s.1 op)
  | .error e => .error e s

def Childless (t : Tasks) : TaskOp → Prop
  | .exit _ => ∀ task ∈ t.current, (t.inner task).child = []
  | _ => True

instance (t : Tasks) (op : TaskOp) : Decidable (Childless t op) :=
  match op with
  | .exit _ => inferInstanceAs (Decidable (∀ task ∈ t.current, (t.inner task).child = []))
  | .runTask | .initTask _ | .suspend | .clone _ | .exitRound | .wait4 _ _ =>
    inferInstanceAs (Decidable True)

def Allowed (op : TaskOp) (_ : Unit) (s : Tasks × List ℕ) : Prop :=
  op.Enabled s.1 ∧ Childless s.1 op

instance (op : TaskOp) (u : Unit) (s : Tasks × List ℕ) : Decidable (Allowed op u s) :=
  inferInstanceAs (Decidable (_ ∧ _))

theorem exec_eq_ok (h : exec op () s = .ok () s') :
    op.step s.1 = .ok s'.1 ∧ s'.2 = s.2 ++ turn s.1 op := by
  unfold exec at h
  split at h
  · rename_i t ht
    cases h
    exact ⟨ht,rfl⟩
  · cases h

structure SameSchedule (t t' : Tasks) : Prop where
  count : t'.count = t.count
  queue : t'.queue = t.queue
  current : t'.current = t.current
  status : ∀ i, (t'.inner i).status = (t.inner i).status

theorem SameSchedule.refl (t : Tasks) : SameSchedule t t := ⟨rfl,rfl,rfl,fun _ => rfl⟩

theorem sameSchedule_setInner (t : Tasks) (i : ℕ) {f : PCBInner → PCBInner}
    (hf : ∀ inner, (f inner).status = inner.status) : SameSchedule t (t.setInner i f) := by
  refine ⟨rfl,rfl,rfl,fun j => ?_⟩
  by_cases h : j = i
  · rw [h,Tasks.inner_setInner_self,hf]
  · rw [Tasks.inner_setInner_of_ne t f h]

/-- One task gets the status, and no other task a new one. -/
def Marks (t t' : Tasks) (task : ℕ) (status : TaskStatus) : Prop :=
  ∀ i, (t'.inner i).status = if i = task then status else (t.inner i).status

theorem marks_setInner (t : Tasks) (task : ℕ) {f : PCBInner → PCBInner} {status : TaskStatus}
    (hf : ∀ inner, (f inner).status = status) : Marks t (t.setInner task f) task status := by
  intro i
  split_ifs with hi
  · rw [hi,Tasks.inner_setInner_self,hf]
  · rw [Tasks.inner_setInner_of_ne t f hi]

theorem marks_addTask (t : Tasks) (p : PCB) : Marks t (t.addTask p) t.count p.inner.status := by
  intro i
  split_ifs with hi
  · rw [hi,Tasks.inner_addTask_self]
  · rw [Tasks.inner_addTask_of_ne t p hi]

theorem waitpid_same {ret : ChildStatus} {word : Option ℤ}
    (h : t.waitpid pid = .ok (ret, word, t')) :
    SameSchedule t t' ∧ t'.exiting = t.exiting := by
  obtain ⟨self,-,rfl | ⟨idx,child,-,-,rfl⟩⟩ := waitpid_cases h
  · exact ⟨.refl t',rfl⟩
  · have hs := sameSchedule_setInner t self
      (f := fun inner => { inner with child := inner.child.eraseIdx idx }) fun _ => rfl
    exact ⟨⟨hs.count,hs.queue,hs.current,hs.status⟩,rfl⟩

theorem exitRound_same (t : Tasks) : SameSchedule t t.exitRound := by
  unfold Tasks.exitRound
  split
  · exact .refl t
  · rename_i task _
    have hs := sameSchedule_setInner t task (f := fun inner => { inner with child := [] })
      fun _ => rfl
    exact ⟨hs.count,hs.queue,hs.current,hs.status⟩
  · rename_i child rest _
    split
    · have hs := sameSchedule_setInner t child
        (f := fun inner => { inner with parent := some t.origin, ppid := 0 }) fun _ => rfl
      refine ⟨rfl,rfl,rfl,fun i => ?_⟩
      rw [← hs.status i]
      exact (sameSchedule_setInner _ t.origin
        (f := fun inner => { inner with child := inner.child ++ [child] }) fun _ => rfl).status i
    · exact .refl t

/-- What a step does with the queue, the hart and the statuses. -/
inductive Moves (t : Tasks) (op : TaskOp) (t' : Tasks) : Prop where
  | same (same : SameSchedule t t')
  | run {task : ℕ} {rest : List ℕ} (called : op = .runTask) (queued : t.queue = task :: rest)
      (count : t'.count = t.count) (queue : t'.queue = rest) (current : t'.current = some task)
      (marks : Marks t t' task .Running)
  | yield {task : ℕ} (held : t.current = some task) (count : t'.count = t.count)
      (queue : t'.queue = t.queue ++ [task]) (current : t'.current = none)
      (marks : Marks t t' task .Ready)
  | exit {task : ℕ} (held : t.current = some task) (count : t'.count = t.count)
      (queue : t'.queue = t.queue) (current : t'.current = none) (marks : Marks t t' task .Dead)
  | push (count : t'.count = t.count + 1) (queue : t'.queue = t.queue ++ [t.count])
      (current : t'.current = t.current) (marks : Marks t t' t.count .Ready)

theorem suspend_moves {t₁ : Tasks} (hs : SameSchedule t t₁) : Moves t op t₁.suspendCurrentTask := by
  unfold Tasks.suspendCurrentTask
  split
  · exact .same hs
  · rename_i task htask
    refine .yield (hs.current.symm.trans htask) hs.count (congrArg (· ++ [task]) hs.queue) rfl
      fun i => ?_
    rw [← hs.status]
    exact marks_setInner t₁ task (fun _ => rfl) i

theorem clone_moves {flags : CloneFlags} (hs : (TaskOp.clone flags).step t = .ok t') :
    Moves t (.clone flags) t' := by
  obtain ⟨self,pid,-,-,rfl⟩ := clone_cases hs
  have hadd := marks_addTask t (t.clonedPcb self flags pid)
  split
  · exact .push rfl rfl rfl hadd
  · -- the new child in the list of its parent does not change a status
    have hlink := sameSchedule_setInner (t.addTask (t.clonedPcb self flags pid)) self
      (f := fun inner => { inner with child := inner.child ++ [t.count] }) fun _ => rfl
    exact .push rfl rfl rfl fun i => (hlink.status i).trans (hadd i)

theorem step_moves (hs : op.step t = .ok t') : Moves t op t' := by
  cases op with
  | runTask =>
    cases hs
    unfold Tasks.runTask
    split
    · exact .same (.refl t)
    · rename_i task rest hqueue
      exact .run rfl hqueue rfl rfl rfl (marks_setInner t task fun _ => rfl)
  | initTask cwd =>
    obtain ⟨pid,rfl⟩ := initTask_cases hs
    exact .push rfl rfl rfl (marks_addTask t _)
  | suspend =>
    cases hs
    exact suspend_moves (.refl t)
  | clone flags => exact clone_moves hs
  | exit exitCode =>
    obtain ⟨task,htask,rfl⟩ := exit_cases hs
    exact .exit htask rfl rfl rfl (marks_setInner t task fun _ => rfl)
  | exitRound =>
    cases hs
    exact .same (exitRound_same t)
  | wait4 pid options =>
    obtain ⟨ret,word,t₁,hw,rfl | rfl⟩ := wait4_cases hs
    · exact .same (waitpid_same hw).1
    · exact suspend_moves (waitpid_same hw).1

end Steps

section Places

structure Scheduled (t : Tasks) : Prop where
  nodup : t.queue.Nodup
  ready : ∀ i ∈ t.queue, i < t.count ∧ (t.inner i).status = .Ready
  running : ∀ i, t.current = some i → i < t.count ∧ (t.inner i).status = .Running
  placed : ∀ i < t.count, (t.inner i).status = .Dead ∨ i ∈ t.queue ∨ t.current = some i
  exiting : ∀ task pending, t.exiting = some (task, pending) → pending = []

theorem Scheduled.notMem (h : Scheduled t) (hi : t.current = some i) : i ∉ t.queue := by
  intro hq
  have hrunning := (h.running i hi).2
  rw [(h.ready i hq).2] at hrunning
  cases hrunning

theorem SameSchedule.scheduled (hs : SameSchedule t t') (h : Scheduled t)
    (he : ∀ task pending, t'.exiting = some (task, pending) → pending = []) : Scheduled t' := by
  refine ⟨?_,?_,?_,?_,he⟩
  · rw [hs.queue]
    exact h.nodup
  · intro i hi
    rw [hs.count,hs.status]
    exact h.ready i (hs.queue ▸ hi)
  · intro i hi
    rw [hs.count,hs.status]
    exact h.running i (hs.current ▸ hi)
  · intro i hi
    rw [hs.status,hs.queue,hs.current]
    exact h.placed i (hs.count ▸ hi)

theorem Moves.scheduled (m : Moves t op t') (h : Scheduled t) (he : op.Enabled t)
    (hx : ∀ task pending, t'.exiting = some (task, pending) → pending = []) : Scheduled t' := by
  cases m with
  | same hs => exact hs.scheduled h hx
  | @run task rest called queued count queue current marks =>
    have hn := h.nodup
    rw [queued,List.nodup_cons] at hn
    refine ⟨queue ▸ hn.2,fun i hi => ?_,fun i hi => ?_,fun i hi => ?_,hx⟩
    · rw [queue] at hi
      have hne : i ≠ task := fun he => hn.1 (he ▸ hi)
      rw [count,marks,if_neg hne]
      exact h.ready i (queued ▸ List.mem_cons_of_mem _ hi)
    · obtain rfl := Option.some.inj (current.symm.trans hi)
      rw [count,marks,if_pos rfl]
      exact ⟨(h.ready task (queued ▸ List.mem_cons_self)).1,rfl⟩
    · rw [marks,queue,current]
      by_cases hi' : i = task
      · exact .inr (.inr (congrArg some hi'.symm))
      · rw [if_neg hi']
        rcases h.placed i (count ▸ hi) with hd | hq | hc
        · exact .inl hd
        · exact .inr (.inl (List.mem_of_ne_of_mem hi' (queued ▸ hq)))
        · subst called
          rw [he.1] at hc
          cases hc
  | @yield task held count queue current marks =>
    have hnot := h.notMem held
    refine ⟨?_,fun i hi => ?_,fun i hi => ?_,fun i hi => ?_,hx⟩
    · rw [queue]
      simpa [List.nodup_append] using ⟨h.nodup,fun i hi he => hnot (he ▸ hi)⟩
    · rw [queue] at hi
      rw [count,marks]
      rcases List.mem_append.mp hi with hq | hq
      · have hne : i ≠ task := fun he => hnot (he ▸ hq)
        rw [if_neg hne]
        exact h.ready i hq
      · obtain rfl : i = task := by simpa using hq
        exact ⟨(h.running i held).1,if_pos rfl⟩
    · rw [current] at hi
      cases hi
    · rw [marks,queue]
      by_cases hi' : i = task
      · exact .inr (.inl (by simp [hi']))
      · rw [if_neg hi']
        rcases h.placed i (count ▸ hi) with hd | hq | hc
        · exact .inl hd
        · exact .inr (.inl (List.mem_append_left _ hq))
        · exact absurd (Option.some.inj (held.symm.trans hc)).symm hi'
  | @exit task held count queue current marks =>
    refine ⟨queue ▸ h.nodup,fun i hi => ?_,fun i hi => ?_,fun i hi => ?_,hx⟩
    · rw [queue] at hi
      have hne : i ≠ task := fun he => h.notMem held (he ▸ hi)
      rw [count,marks,if_neg hne]
      exact h.ready i hi
    · rw [current] at hi
      cases hi
    · rw [marks,queue]
      by_cases hi' : i = task
      · exact .inl (if_pos hi')
      · rw [if_neg hi']
        rcases h.placed i (count ▸ hi) with hd | hq | hc
        · exact .inl hd
        · exact .inr (.inl hq)
        · exact absurd (Option.some.inj (held.symm.trans hc)).symm hi'
  | push count queue current marks =>
    have hfresh : t.count ∉ t.queue := fun hq => Nat.lt_irrefl _ (h.ready _ hq).1
    refine ⟨?_,fun i hi => ?_,fun i hi => ?_,fun i hi => ?_,hx⟩
    · rw [queue]
      simpa [List.nodup_append] using ⟨h.nodup,fun i hi he => hfresh (he ▸ hi)⟩
    · rw [queue] at hi
      rw [count,marks]
      rcases List.mem_append.mp hi with hq | hq
      · obtain ⟨hlt,hstatus⟩ := h.ready i hq
        rw [if_neg hlt.ne]
        exact ⟨by omega,hstatus⟩
      · obtain rfl : i = t.count := by simpa using hq
        exact ⟨by omega,if_pos rfl⟩
    · obtain ⟨hlt,hstatus⟩ := h.running i (current ▸ hi)
      rw [count,marks,if_neg hlt.ne]
      exact ⟨by omega,hstatus⟩
    · rw [marks,queue,current]
      by_cases hi' : i = t.count
      · exact .inr (.inl (by simp [hi']))
      · rw [if_neg hi']
        rcases h.placed i (by omega) with hd | hq | hc
        · exact .inl hd
        · exact .inr (.inl (List.mem_append_left _ hq))
        · exact .inr (.inr hc)

theorem exiting_suspend (t : Tasks) : t.suspendCurrentTask.exiting = t.exiting := by
  unfold Tasks.suspendCurrentTask
  split <;> rfl

theorem step_exiting (h : Scheduled t) (hc : Childless t op) (hs : op.step t = .ok t') :
    ∀ task pending, t'.exiting = some (task, pending) → pending = [] := by
  cases op with
  | runTask =>
    cases hs
    unfold Tasks.runTask
    split <;> exact h.exiting
  | initTask cwd =>
    obtain ⟨pid,rfl⟩ := initTask_cases hs
    exact h.exiting
  | suspend =>
    cases hs
    rw [exiting_suspend]
    exact h.exiting
  | clone flags =>
    obtain ⟨self,pid,-,-,rfl⟩ := clone_cases hs
    split <;> exact h.exiting
  | exit exitCode =>
    obtain ⟨task,htask,rfl⟩ := exit_cases hs
    intro task' pending he
    cases he
    exact hc task htask
  | exitRound =>
    cases hs
    unfold Tasks.exitRound
    split
    · exact h.exiting
    · nofun
    · rename_i hx
      cases h.exiting _ _ hx
  | wait4 pid options =>
    obtain ⟨ret,word,t₁,hw,rfl | rfl⟩ := wait4_cases hs
    · rw [(waitpid_same hw).2]
      exact h.exiting
    · rw [exiting_suspend,(waitpid_same hw).2]
      exact h.exiting

theorem step_scheduled (h : Scheduled t) (he : op.Enabled t) (hc : Childless t op)
    (hs : op.step t = .ok t') : Scheduled t' :=
  (step_moves hs).scheduled h he (step_exiting h hc hs)

theorem scheduled_booted (cwd : List Char) : Scheduled (Tasks.booted cwd) := by
  refine ⟨List.nodup_singleton 0,?_,nofun,?_,nofun⟩
  · intro i hi
    obtain rfl : i = 0 := by simpa [Tasks.booted] using hi
    exact ⟨Nat.one_pos,rfl⟩
  · intro i hi
    have : i < 1 := hi
    exact .inr (.inl (by simp [Tasks.booted]; omega))

end Places

section Turns

theorem queue_grows (hop : op ≠ .runTask) (hs : op.step t = .ok t') :
    ∃ more, t'.queue = t.queue ++ more := by
  cases step_moves hs with
  | same hs => exact ⟨[],by rw [hs.queue,List.append_nil]⟩
  | run called => exact absurd called hop
  | yield _ _ queue => exact ⟨_,queue⟩
  | exit _ _ queue => exact ⟨[],by rw [queue,List.append_nil]⟩
  | push _ queue => exact ⟨_,queue⟩

/-- Before the next turn of `a`, the tasks that were queued ahead of it have their turns in the
order of the queue. -/
def Ahead (a : ℕ) (q : List ℕ) (s : Tasks × List ℕ) : Prop :=
  a ∈ s.2 ∨ ∃ rest new, q = s.2 ++ rest ∧ s.1.queue = rest ++ a :: new

theorem ahead_step {q : List ℕ} (h : Ahead a q s) (hs : exec op () s = .ok () s') :
    Ahead a q s' := by
  obtain ⟨hstep,hturns⟩ := exec_eq_ok hs
  rcases h with hdone | ⟨rest,new,hq,hqueue⟩
  · exact .inl (by rw [hturns]; exact List.mem_append_left _ hdone)
  · by_cases hop : op = .runTask
    · subst hop
      cases hstep' : rest with
      | nil =>
        rw [hstep',List.nil_append] at hqueue
        refine .inl ?_
        rw [hturns]
        simp [turn,hqueue]
      | cons b rest' =>
        rw [hstep',List.cons_append] at hqueue
        refine .inr ⟨rest',new,?_,?_⟩
        · rw [hturns,hq,hstep']
          simp [turn,hqueue]
        · have hrun : s'.1 = s.1.runTask := (Except.ok.inj hstep).symm
          rw [hrun]
          unfold Tasks.runTask
          rw [hqueue]
    · obtain ⟨more,hmore⟩ := queue_grows hop hstep
      have hnone : turn s.1 op = [] := by
        cases op with
        | runTask => exact absurd rfl hop
        | _ => rfl
      refine .inr ⟨rest,new ++ more,?_,?_⟩
      · rw [hturns,hnone,List.append_nil]
        exact hq
      · rw [hmore,hqueue,List.append_assoc,List.cons_append]

theorem queue_suspended (hcur : t.current = some a) (he : op.Enabled t) (hs : op.step t = .ok t')
    (hgone : t'.current ≠ some a) (halive : (t'.inner a).status ≠ .Dead) :
    t'.queue = t.queue ++ [a] := by
  cases step_moves hs with
  | same hs => exact absurd (hs.current.trans hcur) hgone
  | run called =>
    subst called
    rw [he.1] at hcur
    cases hcur
  | yield held _ queue =>
    obtain rfl := Option.some.inj (held.symm.trans hcur)
    exact queue
  | exit held _ _ _ marks =>
    obtain rfl := Option.some.inj (held.symm.trans hcur)
    exact absurd ((marks _).trans (if_pos rfl)) halive
  | push _ _ current => exact absurd (current.trans hcur) hgone

end Turns

section Runs

theorem count_step (hs : op.step t = .ok t') : t.count ≤ t'.count := by
  cases step_moves hs with
  | same hs => exact hs.count.ge
  | run _ _ count => exact count.ge
  | yield _ count => exact count.ge
  | exit _ count => exact count.ge
  | push count => omega

theorem dead_step (h : Scheduled t) (hs : op.step t = .ok t')
    (hi : i < t.count) (hd : (t.inner i).status = .Dead) : (t'.inner i).status = .Dead := by
  cases step_moves hs with
  | same hs => exact (hs.status i).trans hd
  | run _ queued _ _ _ marks =>
    rw [marks,if_neg,hd]
    rintro rfl
    rw [(h.ready i (queued ▸ List.mem_cons_self)).2] at hd
    cases hd
  | yield held _ _ _ marks =>
    rw [marks,if_neg,hd]
    rintro rfl
    rw [(h.running i held).2] at hd
    cases hd
  | exit _ _ _ _ marks => rw [marks,hd,ite_self]
  | push _ _ _ marks => rw [marks,if_neg hi.ne,hd]

/-- Every task that has not exited is the current one or queued once, and its status says which. -/
structure InPlace (t : Tasks) : Prop where
  place : ∀ i < t.count, (t.inner i).status ≠ .Dead →
    (t.current = some i ∧ i ∉ t.queue) ∨ (t.current ≠ some i ∧ t.queue.count i = 1)
  ready : ∀ i ∈ t.queue, (t.inner i).status = .Ready
  running : ∀ i, t.current = some i → (t.inner i).status = .Running

theorem Scheduled.inPlace (h : Scheduled t) : InPlace t := by
  refine ⟨?_,fun i hi => (h.ready i hi).2,fun i hi => (h.running i hi).2⟩
  intro i hi halive
  by_cases hc : t.current = some i
  · exact .inl ⟨hc,h.notMem hc⟩
  · rcases h.placed i hi with hd | hq | hc'
    · exact absurd hd halive
    · exact .inr ⟨hc,List.count_eq_one_of_mem h.nodup hq⟩
    · exact absurd hc' hc

theorem exec_scheduled (h : Scheduled s.1) (ha : Allowed op () s) :
    Holds (exec op ()) s (fun _ s' => Scheduled s'.1) fun _ _ => True := by
  unfold Holds
  split
  · rename_i s' hs
    exact step_scheduled h ha.1 ha.2 (exec_eq_ok hs).1
  · trivial

theorem run_scheduled (h : Scheduled s.1) (run : Runs exec Allowed () s () s') :
    Scheduled s'.1 :=
  run.invariant (fun _ s => Scheduled s.1) (fun _ _ _ h ha => exec_scheduled h ha) h

theorem run_dead (h : Scheduled s.1) (run : Runs exec Allowed () s () s')
    (hi : i < s.1.count) (hd : (s.1.inner i).status = .Dead) :
    (s'.1.inner i).status = .Dead ∧ i ∉ s'.1.queue ∧ s'.1.current ≠ some i := by
  have hkeep : Scheduled s'.1 ∧ i < s'.1.count ∧ (s'.1.inner i).status = .Dead := by
    refine run.invariant (fun _ s => Scheduled s.1 ∧ i < s.1.count ∧ (s.1.inner i).status = .Dead)
      ?_ ⟨h,hi,hd⟩
    intro op _ s ⟨hs,hi,hd⟩ ha
    unfold Holds
    split
    · rename_i s' hexec
      have hstep := (exec_eq_ok hexec).1
      have hs' := step_scheduled hs ha.1 ha.2 hstep
      exact ⟨hs',Nat.lt_of_lt_of_le hi (count_step hstep),dead_step hs hstep hi hd⟩
    · trivial
  refine ⟨hkeep.2.2,?_,?_⟩
  · intro hq
    have := (hkeep.1.ready i hq).2
    rw [hkeep.2.2] at this
    cases this
  · intro hc
    have := (hkeep.1.running i hc).2
    rw [hkeep.2.2] at this
    cases this

/-- Scheduling on one hart, from boot and with tasks that exit without children. Every task has its
place and a dead task never runs again. Once a task `a` has given up the hart, the tasks that have a
turn before its next one are those that were queued at that moment, each once. -/
theorem turns_go_round (cwd : List Char) (s : Tasks × List ℕ)
    (run : Runs exec Allowed () (Tasks.booted cwd, []) () s) :
    InPlace s.1 ∧
    (∀ s', Runs exec Allowed () s () s' → ∀ i < s.1.count, (s.1.inner i).status = .Dead →
      (s'.1.inner i).status = .Dead ∧ i ∉ s'.1.queue ∧ s'.1.current ≠ some i) ∧
    ∀ a op t, s.1.current = some a → Allowed op () s → op.step s.1 = .ok t →
      t.current ≠ some a → (t.inner a).status ≠ .Dead →
      ∀ u turns, Runs exec Allowed () (t, []) () (u, turns) → a ∉ turns →
        TaskOp.runTask.Enabled u → u.queue.head? = some a →
        turns = s.1.queue ∧ ∀ b ∈ s.1.queue, turns.count b = 1 := by
  have hs : Scheduled s.1 := run_scheduled (scheduled_booted cwd) run
  refine ⟨hs.inPlace,fun s' run' i hi hd => run_dead hs run' hi hd,?_⟩
  intro a op t hcur hallowed hstep hgone halive u turns run' hnot _ hhead
  have hqueue := queue_suspended hcur hallowed.1 hstep hgone halive
  have hahead : Ahead a s.1.queue (u, turns) := by
    refine run'.invariant (fun _ s' => Ahead a s.1.queue s') ?_
      (.inr ⟨s.1.queue,[],rfl,hqueue⟩)
    intro op _ s' h _
    unfold Holds
    split
    · rename_i hexec
      exact ahead_step h hexec
    · trivial
  have hall : turns = s.1.queue := by
    rcases hahead with hin | ⟨rest,new,hq,hu⟩
    · exact absurd hin hnot
    · cases rest with
      | nil => rw [hq,List.append_nil]
      | cons b rest =>
        have hb : b = a := by
          rw [show u.queue = b :: (rest ++ a :: new) from hu] at hhead
          exact Option.some.inj hhead
        refine absurd ?_ (hs.notMem hcur)
        rw [hq,hb]
        simp
  exact ⟨hall,fun b hb => by rw [hall]; exact List.count_eq_one_of_mem hs.nodup hb⟩

/-- The first task has started a second one. -/
def forked : Tasks × List ℕ :=
  match (TaskOp.clone CloneFlags.SIGCHLD).step (Tasks.booted ['/']).runTask with
  | .ok t => (t, [0])
  | .error _ => (Tasks.booted ['/'], [])

/-- Between two turns of the first task the second one has its turn. -/
theorem forked_turns : ∃ u turns, Runs exec Allowed ()
    (forked.1.suspendCurrentTask, []) () (u, turns) ∧
    u.queue.head? = some 0 ∧ turns = forked.1.queue ∧ turns.count 1 = 1 := by
  have run : Runs exec Allowed () (forked.1.suspendCurrentTask,[]) ()
      (forked.1.suspendCurrentTask.runTask.suspendCurrentTask,[1]) :=
    Runs.of_guarded .assertion [.runTask,.suspend] .refl rfl
  obtain ⟨hturns,hcount⟩ := (turns_go_round ['/'] forked
    (Runs.of_guarded .assertion [.runTask,.clone CloneFlags.SIGCHLD] .refl rfl)).2.2 0 .suspend
      forked.1.suspendCurrentTask rfl (by decide) rfl (by decide) (by decide) _ [1] run (by decide)
      (by decide) rfl
  exact ⟨_,[1],run,rfl,hturns,hcount 1 (by rw [← hturns]; exact List.mem_cons_self)⟩

end Runs

end DuckOs.RoundRobin
