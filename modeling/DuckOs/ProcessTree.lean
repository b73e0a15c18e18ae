import DuckOs.ProcessModel

namespace DuckOs.ProcessTree
open ProcessModel PermissionFlags

variable {child task : ℕ} {rest : List ℕ} {op : TaskOp} {ops : List TaskOp}
  {f : PCBInner → PCBInner} {exitCode : ℤ} {flags : CloneFlags} {t t' : Tasks}

section Records

structure SameTree (t t' : Tasks) : Prop where
  count : t'.count = t.count
  origin : t'.origin = t.origin
  waited : t'.waited = t.waited
  pid : ∀ i, (t'.pcb i).pid = (t.pcb i).pid
  parent : ∀ i, (t'.inner i).parent = (t.inner i).parent
  ppid : ∀ i, (t'.inner i).ppid = (t.inner i).ppid
  child : ∀ i, (t'.inner i).child = (t.inner i).child

theorem SameTree.refl (t : Tasks) : SameTree t t :=
  ⟨rfl,rfl,rfl,fun _ => rfl,fun _ => rfl,fun _ => rfl,fun _ => rfl⟩

theorem parent_setInner (t : Tasks) (i : ℕ)
    (hf : ∀ x, (f x).parent = x.parent ∧ (f x).ppid = x.ppid) (j : ℕ) :
    ((t.setInner i f).inner j).parent = (t.inner j).parent ∧
      ((t.setInner i f).inner j).ppid = (t.inner j).ppid := by
  by_cases h : j = i
  · rw [h,Tasks.inner_setInner_self]
    exact hf _
  · rw [Tasks.inner_setInner_of_ne t f h]
    exact ⟨rfl,rfl⟩

theorem sameTree_setInner (t : Tasks) (i : ℕ)
    (hf : ∀ x, (f x).parent = x.parent ∧ (f x).ppid = x.ppid ∧ (f x).child = x.child) :
    SameTree t (t.setInner i f) := by
  have hparent := parent_setInner t i fun x => ⟨(hf x).1,(hf x).2.1⟩
  refine ⟨rfl,rfl,rfl,fun j => Tasks.pid_setInner t i j f,fun j => (hparent j).1,
    fun j => (hparent j).2,fun j => ?_⟩
  by_cases h : j = i
  · rw [h,Tasks.inner_setInner_self]
    exact (hf _).2.2
  · rw [Tasks.inner_setInner_of_ne t f h]

theorem suspend_sameTree (t : Tasks) : SameTree t t.suspendCurrentTask := by
  unfold Tasks.suspendCurrentTask
  split
  · exact .refl t
  · rename_i task _
    have hs := sameTree_setInner t task (f := fun inner => { inner with status := .Ready })
      fun _ => ⟨rfl,rfl,rfl⟩
    exact ⟨hs.count,hs.origin,hs.waited,hs.pid,hs.parent,hs.ppid,hs.child⟩

theorem runTask_sameTree (t : Tasks) : SameTree t t.runTask := by
  unfold Tasks.runTask
  split
  · exact .refl t
  · rename_i task rest _
    have hs := sameTree_setInner t task (f := fun inner => { inner with status := .Running })
      fun _ => ⟨rfl,rfl,rfl⟩
    exact ⟨hs.count,hs.origin,hs.waited,hs.pid,hs.parent,hs.ppid,hs.child⟩

theorem exit_sameTree (h : (TaskOp.exit exitCode).step t = .ok t') :
    ∃ task, t.current = some task ∧ SameTree t t' ∧ t'.queue = t.queue ∧ t'.current = none ∧
      t'.exiting = some (task, (t.inner task).child) := by
  obtain ⟨task,htask,rfl⟩ := exit_cases h
  have hs := sameTree_setInner t task
    (f := fun inner => { inner with status := .Dead, exitCode := exitCode })
    fun _ => ⟨rfl,rfl,rfl⟩
  exact ⟨task,htask,⟨hs.count,hs.origin,hs.waited,hs.pid,hs.parent,hs.ppid,hs.child⟩,
    rfl,rfl,rfl⟩

theorem exitRound_done (h : t.exiting = some (task, [])) :
    t.exitRound.exiting = none ∧ t.exitRound.current = t.current ∧
      t.exitRound.queue = t.queue ∧ (t.exitRound.inner task).child = [] ∧
      ((t.inner task).child = [] → SameTree t t.exitRound) := by
  unfold Tasks.exitRound
  rw [h]
  refine ⟨rfl,rfl,rfl,?_,?_⟩
  · have := Tasks.inner_setInner_self t task fun inner => { inner with child := [] }
    exact congrArg PCBInner.child this
  · intro hnone
    have hchild : ∀ i, ((t.setInner task fun inner => { inner with child := [] }).inner i).child =
        (t.inner i).child := by
      intro i
      by_cases hi : i = task
      · rw [hi,Tasks.inner_setInner_self,hnone]
      · rw [Tasks.inner_setInner_of_ne t _ hi]
    have hother := parent_setInner t task (f := fun inner => { inner with child := [] })
      fun _ => ⟨rfl,rfl⟩
    exact ⟨rfl,rfl,rfl,fun i =>
      Tasks.pid_setInner t task i fun inner => { inner with child := [] },fun i => (hother i).1,
      fun i => (hother i).2,hchild⟩

end Records

section Handover

/-- Every child is at the end of the origin's list once and has the origin as its parent; the task
itself has no children any more. -/
def HandedOver (t t' : Tasks) (task : ℕ) : Prop :=
  (t'.inner t.origin).child = (t.inner t.origin).child ++ (t.inner task).child ∧
    (∀ child ∈ (t.inner task).child, (t'.inner child).parent = some t.origin) ∧
    (t'.inner task).child = []

theorem exitRound_stuck (h : t.exiting = some (task, child :: rest)) :
    t.exitRound.exiting = some (task, child :: rest) := by
  unfold Tasks.exitRound
  rw [h]
  dsimp only
  split
  · exact h
  · exact h

theorem rounds_stuck (h : t.exiting = some (task, child :: rest))
    (n : ℕ) : (Tasks.exitRound^[n] t).exiting = some (task, child :: rest) := by
  induction n with
  | zero => exact h
  | succ n ih =>
    rw [Function.iterate_succ_apply']
    exact exitRound_stuck ih

/-- With the hart to itself, `exit_current_task` reaches the switch to the idle task, with the
children handed over, exactly if there are no children. -/
theorem exit_hands_over_iff (t t₀ : Tasks) (task : ℕ) (exitCode : ℤ)
    (current : t.current = some task) (start : t.exitCurrentTask exitCode = .ok t₀) :
    (∃ n, (Tasks.exitRound^[n] t₀).exiting = none ∧ HandedOver t (Tasks.exitRound^[n] t₀) task) ↔
      (t.inner task).child = [] := by
  obtain ⟨task',htask,hsame,-,-,hexit⟩ :=
    exit_sameTree (show (TaskOp.exit exitCode).step t = .ok t₀ from start)
  cases current.symm.trans htask
  constructor
  · rintro ⟨n,hdone,-⟩
    cases hchild : (t.inner task).child with
    | nil => rfl
    | cons child rest =>
      rw [hchild] at hexit
      rw [rounds_stuck hexit n] at hdone
      cases hdone
  · intro hchild
    rw [hchild] at hexit
    obtain ⟨hdone,-,-,hempty,hkeep⟩ := exitRound_done hexit
    have hsame₁ := hkeep ((hsame.child task).trans hchild)
    refine ⟨1,hdone,?_,?_,hempty⟩
    · rw [hchild,List.append_nil]
      exact (hsame₁.child _).trans (hsame.child _)
    · rw [hchild]
      exact nofun

/-- The origin has a child that has a child of its own and runs. -/
def threeTasks : Tasks where
  count := 3
  pcb
    | 0 => ⟨2, 2, 0, 0, ⟨['/'], 1, 0, none, [1], .Ready⟩⟩
    | 1 => ⟨3, 3, 1, 1, ⟨['/'], 2, 0, some 0, [2], .Running⟩⟩
    | _ => ⟨4, 4, 2, 2, ⟨['/'], 3, 0, some 1, [], .Ready⟩⟩
  queue := [2, 0]
  current := some 1
  origin := 0
  exiting := none
  waited := []

theorem exitRound_hands (h : t.exiting = some (task, child :: rest))
    (hc : t.canHandOver task child = true) : t.exitRound = t.handOver child := by
  unfold Tasks.exitRound
  rw [h]
  exact if_pos hc

theorem child_handOver (hne : t.origin ≠ child) :
    ((t.handOver child).inner t.origin).child = (t.inner t.origin).child ++ [child] := by
  unfold Tasks.handOver
  rw [Tasks.inner_setInner_self,Tasks.inner_setInner_of_ne t _ hne]

theorem rounds_hand_over (task : ℕ)
    (h : t.exiting = some (task, child :: rest)) (hc : t.canHandOver task child = true) (n : ℕ) :
    ((Tasks.exitRound^[n] t).inner t.origin).child =
      (t.inner t.origin).child ++ List.replicate n child := by
  have hne : t.origin ≠ child := by
    simp only [Tasks.canHandOver,Bool.and_eq_true,bne_iff_ne] at hc
    exact hc.2
  have hkeep : (Tasks.exitRound^[n] t).origin = t.origin ∧
      ((Tasks.exitRound^[n] t).inner t.origin).child =
        (t.inner t.origin).child ++ List.replicate n child := by
    induction n with
    | zero => exact ⟨rfl,(List.append_nil _).symm⟩
    | succ n ih =>
      have hc' : (Tasks.exitRound^[n] t).canHandOver task child = true := by
        unfold Tasks.canHandOver at hc ⊢
        rw [ih.1]
        exact hc
      rw [Function.iterate_succ_apply',exitRound_hands (rounds_stuck h n) hc']
      refine ⟨ih.1,?_⟩
      have hstep := child_handOver (t := Tasks.exitRound^[n] t) (by rw [ih.1]; exact hne)
      rw [ih.1] at hstep
      rw [hstep,ih.2,List.replicate_succ',List.append_assoc]
  exact hkeep.2

/-- A task that exits with a child stays in its loop for ever and fills the list of the origin. -/
theorem exit_never_ends : ∃ t₀, threeTasks.exitCurrentTask 0 = .ok t₀ ∧
    ∀ n, (Tasks.exitRound^[n] t₀).exiting = some (1, [2]) ∧
      ((Tasks.exitRound^[n] t₀).inner 0).child = 1 :: List.replicate n 2 :=
  ⟨_,rfl,fun n => ⟨rounds_stuck rfl n,rounds_hand_over 1 rfl rfl n⟩⟩

/-- The last of the three tasks exits. -/
theorem childless_exit_ends : ∃ t₀ n,
    ({ threeTasks with current := some 2 } : Tasks).exitCurrentTask 0 = .ok t₀ ∧
      (Tasks.exitRound^[n] t₀).exiting = none := by
  obtain ⟨n,hdone,-⟩ := (exit_hands_over_iff { threeTasks with current := some 2 } _
    2 0 rfl rfl).mpr
    rfl
  exact ⟨_,n,rfl,hdone⟩

end Handover

section Family

/-- A process that has a parent and has not been waited for is once in the list of that parent and
in no other list, and its `ppid` is the pid of that parent. -/
def InTree (t : Tasks) : Prop :=
  ∀ i < t.count, i ∉ t.waited → ∀ p, (t.inner i).parent = some p →
    p < t.count ∧ (t.inner i).ppid = (t.pcb p).pid ∧
      ∀ j < t.count, (t.inner j).child.count i = if j = p then 1 else 0

/-- No process with a parent asks for a sibling, and no process but the origin is in the loop that
hands its children over. -/
def Steady (t : Tasks) : TaskOp → Prop
  | .clone flags => contains flags CloneFlags.CLONE_PARENT = true →
      ∀ self ∈ t.current, (t.inner self).parent = none
  | .exitRound => ∀ task child rest, t.exiting = some (task, child :: rest) → task = t.origin
  | _ => True

def EnabledAlong : Tasks → List TaskOp → Prop
  | _, [] => True
  | t, op :: ops => op.Enabled t ∧ ∀ t', op.step t = .ok t' → EnabledAlong t' ops

def InTreeAlong : Tasks → List TaskOp → Prop
  | t, [] => InTree t
  | t, op :: ops => InTree t ∧ ∀ t', op.step t = .ok t' → InTreeAlong t' ops

/-- Every step that the kernel completes is steady. -/
def SteadyAlong : Tasks → List TaskOp → Prop
  | _, [] => True
  | t, op :: ops => ∀ t', op.step t = .ok t' → Steady t op ∧ SteadyAlong t' ops

structure Family (t : Tasks) : Prop where
  tree : InTree t
  members : ∀ j < t.count, ∀ c ∈ (t.inner j).child,
    c < t.count ∧ c ∉ t.waited ∧ (t.inner c).parent = some j
  older : ∀ i < t.count, ∀ p, (t.inner i).parent = some p → p < i
  origin : t.origin < t.count ∧ (t.inner t.origin).parent = none
  waited : ∀ i ∈ t.waited, i < t.count
  queue : ∀ i ∈ t.queue, i < t.count
  current : ∀ i, t.current = some i → i < t.count
  exiting : ∀ task pending, t.exiting = some (task, pending) →
    task < t.count ∧ pending = (t.inner task).child ∧ t.current = none

theorem SameTree.family (hs : SameTree t t') (h : Family t) (hq : ∀ i ∈ t'.queue, i < t.count)
    (hc : ∀ i, t'.current = some i → i < t.count)
    (he : ∀ task pending, t'.exiting = some (task, pending) →
      task < t.count ∧ pending = (t.inner task).child ∧ t'.current = none) : Family t' where
  tree := by
    unfold InTree
    simp only [hs.count,hs.waited,hs.parent,hs.ppid,hs.pid,hs.child]
    exact h.tree
  members := by
    simp only [hs.count,hs.waited,hs.parent,hs.child]
    exact h.members
  older := by
    simp only [hs.count,hs.parent]
    exact h.older
  origin := by
    simp only [hs.count,hs.origin,hs.parent]
    exact h.origin
  waited := by
    simp only [hs.count,hs.waited]
    exact h.waited
  queue := by
    rw [hs.count]
    exact hq
  current := by
    rw [hs.count]
    exact hc
  exiting := by
    simp only [hs.count,hs.child]
    exact he

theorem suspend_family (h : Family t) : Family t.suspendCurrentTask := by
  refine (suspend_sameTree t).family h ?_ ?_ ?_
  · unfold Tasks.suspendCurrentTask
    split
    · exact h.queue
    · rename_i task htask
      intro i hi
      rcases List.mem_append.mp (show i ∈ t.queue ++ [task] from hi) with hq | hq
      · exact h.queue i hq
      · obtain rfl : i = task := by simpa using hq
        exact h.current i htask
  · unfold Tasks.suspendCurrentTask
    split
    · exact h.current
    · exact nofun
  · unfold Tasks.suspendCurrentTask
    split
    · exact h.exiting
    · intro task pending he
      obtain ⟨hlt,hchild,-⟩ := h.exiting task pending he
      exact ⟨hlt,hchild,rfl⟩

theorem runTask_family (h : Family t) (hidle : t.exiting = none) : Family t.runTask := by
  have hcases : t.runTask = t ∨ ∃ task rest, t.queue = task :: rest ∧
      t.runTask.queue = rest ∧ t.runTask.current = some task ∧ t.runTask.exiting = t.exiting := by
    unfold Tasks.runTask
    split
    · exact .inl rfl
    · rename_i task rest hq
      exact .inr ⟨task,rest,hq,rfl,rfl,rfl⟩
  rcases hcases with he | ⟨task,rest,hq,hq',hc',he'⟩
  · rw [he]
    exact h
  · refine (runTask_sameTree t).family h ?_ ?_ ?_
    · rw [hq']
      exact fun i hi => h.queue i (hq ▸ List.mem_cons_of_mem _ hi)
    · intro i hi
      rw [hc'] at hi
      exact h.queue i (hq ▸ Option.some.inj hi ▸ List.mem_cons_self)
    · rw [he',hidle]
      exact nofun

theorem exit_family (h : Family t) (hs : (TaskOp.exit exitCode).step t = .ok t') : Family t' := by
  obtain ⟨task,htask,hsame,hqueue,hcur,hexit⟩ := exit_sameTree hs
  refine hsame.family h (hqueue ▸ h.queue) (by rw [hcur]; exact nofun) ?_
  intro task' pending he
  rw [hexit] at he
  cases he
  exact ⟨h.current task htask,rfl,hcur⟩

theorem exitRound_family (h : Family t) (hs : Steady t .exitRound) : Family t.exitRound := by
  cases hexit : t.exiting with
  | none =>
    have hsame : t.exitRound = t := by
      unfold Tasks.exitRound
      rw [hexit]
    rw [hsame]
    exact h
  | some e =>
    obtain ⟨task,pending⟩ := e
    obtain ⟨-,hpending,-⟩ := h.exiting task pending hexit
    cases pending with
    | nil =>
      obtain ⟨hdone,hcur,hqueue,-,hkeep⟩ := exitRound_done hexit
      refine (hkeep hpending.symm).family h (hqueue ▸ h.queue) (hcur ▸ h.current) ?_
      rw [hdone]
      exact nofun
    | cons child rest =>
      have hsame : t.exitRound = t := by
        unfold Tasks.exitRound
        rw [hexit]
        refine if_neg ?_
        simp [Tasks.canHandOver,hs task child rest hexit]
      rw [hsame]
      exact h

theorem exitRound_breaks (h : Family t) (hs : ¬ Steady t .exitRound) : ¬ InTree t.exitRound := by
  simp only [Steady,not_forall] at hs
  obtain ⟨task,child,rest,hexit,hne⟩ := hs
  obtain ⟨htask,hpending,-⟩ := h.exiting task _ hexit
  have hmem : child ∈ (t.inner task).child := hpending ▸ List.mem_cons_self
  obtain ⟨hlt,hnot,hparent⟩ := h.members task htask child hmem
  have hself : child ≠ task := by
    rintro rfl
    exact Nat.lt_irrefl _ (h.older child hlt child hparent)
  have horigin : t.origin ≠ child := by
    intro he
    rw [← he,h.origin.2] at hparent
    cases hparent
  have hc : t.canHandOver task child = true := by
    simp [Tasks.canHandOver,hself,horigin,Ne.symm hne]
  rw [exitRound_hands hexit hc]
  intro htree
  have hnew : ((t.handOver child).inner child).parent = some t.origin := by
    unfold Tasks.handOver
    rw [Tasks.inner_setInner_of_ne _ _ (Ne.symm horigin),Tasks.inner_setInner_self]
  obtain ⟨-,-,hlists⟩ := htree child hlt hnot t.origin hnew
  have hcount := hlists task htask
  have hsame : ((t.handOver child).inner task).child = (t.inner task).child := by
    unfold Tasks.handOver
    rw [Tasks.inner_setInner_of_ne _ _ hne,Tasks.inner_setInner_of_ne _ _ (Ne.symm hself)]
  rw [if_neg hne,hsame,List.count_eq_zero] at hcount
  exact hcount hmem

structure Added (t t' : Tasks) : Prop where
  count : t'.count = t.count + 1
  origin : t'.origin = t.origin
  waited : t'.waited = t.waited
  current : t'.current = t.current
  exiting : t'.exiting = t.exiting
  queue : t'.queue = t.queue ++ [t.count]
  pid : ∀ i < t.count, (t'.pcb i).pid = (t.pcb i).pid
  parent : ∀ i < t.count, (t'.inner i).parent = (t.inner i).parent
  ppid : ∀ i < t.count, (t'.inner i).ppid = (t.inner i).ppid
  childNew : (t'.inner t.count).child = []

section

variable (ha : Added t t') (h : Family t)
  (hchild : ∀ j < t.count, (t'.inner j).child = (t.inner j).child ++
    if (t'.inner t.count).parent = some j then [t.count] else [])
  (hnew : ∀ p, (t'.inner t.count).parent = some p →
    t.current = some p ∧ (t'.inner t.count).ppid = (t.pcb p).pid)
include ha h hchild

theorem Added.count_new {p j : ℕ} (hp : (t'.inner t.count).parent = some p) (hlt : p < t.count)
    (hj : j < t'.count) : (t'.inner j).child.count t.count = if j = p then 1 else 0 := by
  rw [ha.count] at hj
  by_cases hjn : j = t.count
  · rw [hjn,ha.childNew,if_neg (by omega)]
    rfl
  · have hfresh : t.count ∉ (t.inner j).child :=
      fun hm => Nat.lt_irrefl _ (h.members j (by omega) _ hm).1
    rw [hchild j (by omega),hp,List.count_append,List.count_eq_zero.mpr hfresh]
    by_cases hjp : j = p
    · rw [hjp]
      simp
    · simp [hjp,Ne.symm hjp]

theorem Added.count_old {i p j : ℕ} (hi : i < t.count) (hw : i ∉ t.waited)
    (hp : (t.inner i).parent = some p) (hj : j < t'.count) :
    (t'.inner j).child.count i = if j = p then 1 else 0 := by
  obtain ⟨hlt,-,hlists⟩ := h.tree i hi hw p hp
  rw [ha.count] at hj
  by_cases hjn : j = t.count
  · rw [hjn,ha.childNew,if_neg (by omega)]
    rfl
  · have hzero : (if (t'.inner t.count).parent = some j then [t.count] else []).count i = 0 := by
      split
      · simp [hi.ne']
      · rfl
    rw [hchild j (by omega),List.count_append,hlists j (by omega),hzero,Nat.add_zero]

theorem Added.members (j : ℕ) (hj : j < t'.count) (c : ℕ) (hc : c ∈ (t'.inner j).child) :
    c < t'.count ∧ c ∉ t'.waited ∧ (t'.inner c).parent = some j := by
  rw [ha.count] at hj ⊢
  rw [ha.waited]
  by_cases hjn : j = t.count
  · rw [hjn,ha.childNew] at hc
    cases hc
  · have hj' : j < t.count := by omega
    rw [hchild j hj'] at hc
    rcases List.mem_append.mp hc with hold | hlast
    · obtain ⟨hlt,hnot,hparent⟩ := h.members j hj' c hold
      exact ⟨by omega,hnot,(ha.parent c hlt).trans hparent⟩
    · split_ifs at hlast with hparent
      · obtain rfl : c = t.count := by simpa using hlast
        exact ⟨by omega,fun hw => Nat.lt_irrefl _ (h.waited _ hw),hparent⟩
      · cases hlast

include hnew

theorem Added.inTree : InTree t' := by
  intro i hi hw p hp
  rw [ha.count] at hi
  rw [ha.waited] at hw
  by_cases he : i = t.count
  · subst he
    obtain ⟨hcur,hppid⟩ := hnew p hp
    have hlt := h.current p hcur
    exact ⟨by rw [ha.count]; omega,hppid.trans (ha.pid p hlt).symm,
      fun j => ha.count_new h hchild hp hlt⟩
  · have hi' : i < t.count := by omega
    rw [ha.parent i hi'] at hp
    obtain ⟨hlt,hppid,-⟩ := h.tree i hi' hw p hp
    exact ⟨by rw [ha.count]; omega,(ha.ppid i hi').trans (hppid.trans (ha.pid p hlt).symm),
      fun j => ha.count_old h hchild hi' hw hp⟩

theorem Added.family : Family t' := by
  refine ⟨ha.inTree h hchild hnew,ha.members h hchild,?_,?_,?_,?_,?_,?_⟩
  · intro i hi p hp
    by_cases he : i = t.count
    · subst he
      exact h.current p (hnew p hp).1
    · rw [ha.count] at hi
      rw [ha.parent i (by omega)] at hp
      exact h.older i (by omega) p hp
  · rw [ha.count,ha.origin,ha.parent _ h.origin.1]
    exact ⟨Nat.lt_succ_of_lt h.origin.1,h.origin.2⟩
  · intro i hi
    rw [ha.waited] at hi
    rw [ha.count]
    exact Nat.lt_succ_of_lt (h.waited i hi)
  · intro i hi
    rw [ha.queue] at hi
    rw [ha.count]
    rcases List.mem_append.mp hi with hq | hq
    · exact Nat.lt_succ_of_lt (h.queue i hq)
    · obtain rfl : i = t.count := by simpa using hq
      exact Nat.lt_succ_self _
  · intro i hi
    rw [ha.current] at hi
    rw [ha.count]
    exact Nat.lt_succ_of_lt (h.current i hi)
  · intro task pending he
    rw [ha.exiting] at he
    obtain ⟨hlt,hpending,hnone⟩ := h.exiting task pending he
    rw [ha.count,ha.current]
    refine ⟨Nat.lt_succ_of_lt hlt,?_,hnone⟩
    rw [hchild task hlt,if_neg,List.append_nil]
    · exact hpending
    · -- nobody makes a child while a task exits
      intro hp
      rw [(hnew task hp).1] at hnone
      cases hnone

end

theorem added_push (t : Tasks) (p : PCB) (hp : p.inner.child = []) :
    Added t ((t.addTask p).pushTaskToSchedule t.count) := by
  have hinner : ∀ i < t.count, (t.addTask p).inner i = t.inner i :=
    fun i hi => Tasks.inner_addTask_of_ne t p (Nat.ne_of_lt hi)
  refine ⟨rfl,rfl,rfl,rfl,rfl,rfl,?_,?_,?_,?_⟩
  · intro i hi
    rw [Tasks.pcb_pushTaskToSchedule,Tasks.pcb_addTask_of_ne t p (Nat.ne_of_lt hi)]
  · intro i hi
    rw [Tasks.inner_pushTaskToSchedule,hinner i hi]
  · intro i hi
    rw [Tasks.inner_pushTaskToSchedule,hinner i hi]
  · rw [Tasks.inner_pushTaskToSchedule,Tasks.inner_addTask_self,hp]

theorem added_link (t : Tasks) (p : PCB) (hp : p.inner.child = []) {self : ℕ}
    (hself : self < t.count) :
    Added t (((t.addTask p).setInner self fun inner =>
      { inner with child := inner.child ++ [t.count] }).pushTaskToSchedule t.count) := by
  have ha := added_push t p hp
  have hinner := parent_setInner (t.addTask p) self
    (f := fun inner => { inner with child := inner.child ++ [t.count] }) fun _ => ⟨rfl,rfl⟩
  refine ⟨rfl,rfl,rfl,rfl,rfl,rfl,?_,?_,?_,?_⟩
  · intro i hi
    rw [Tasks.pcb_pushTaskToSchedule,Tasks.pid_setInner]
    exact ha.pid i hi
  · exact fun i hi => (hinner i).1.trans (ha.parent i hi)
  · exact fun i hi => (hinner i).2.trans (ha.ppid i hi)
  · rw [Tasks.inner_pushTaskToSchedule,Tasks.inner_setInner_of_ne _ _ (Nat.ne_of_gt hself)]
    exact ha.childNew

section

variable (h : Family t)
include h

theorem added_orphan_family (p : PCB) (hp : p.inner.child = [])
    (hnone : p.inner.parent = none) : Family ((t.addTask p).pushTaskToSchedule t.count) := by
  refine (added_push t p hp).family h ?_ ?_
  · intro j hj
    rw [Tasks.inner_pushTaskToSchedule,Tasks.inner_pushTaskToSchedule,Tasks.inner_addTask_self,
      hnone,Tasks.inner_addTask_of_ne t p (Nat.ne_of_lt hj)]
    simp
  · intro q hq
    rw [Tasks.inner_pushTaskToSchedule,Tasks.inner_addTask_self,hnone] at hq
    cases hq

theorem initTask_family {cwd : List Char}
    (hs : (TaskOp.initTask cwd).step t = .ok t') : Family t' := by
  obtain ⟨pid,rfl⟩ := initTask_cases hs
  exact added_orphan_family h _ rfl rfl

theorem clone_family (hst : Steady t (.clone flags))
    (hs : (TaskOp.clone flags).step t = .ok t') : Family t' := by
  obtain ⟨self,pid,hself,-,rfl⟩ := clone_cases hs
  have hlt := h.current self hself
  by_cases hflag : contains flags CloneFlags.CLONE_PARENT = true
  · rw [if_pos hflag]
    refine added_orphan_family h _ rfl ?_
    simp [Tasks.clonedPcb,hflag,hst hflag self hself]
  · rw [if_neg hflag]
    have hnew : ((t.addTask (t.clonedPcb self flags pid)).inner t.count).parent = some self ∧
        ((t.addTask (t.clonedPcb self flags pid)).inner t.count).ppid = (t.pcb self).pid := by
      rw [Tasks.inner_addTask_self]
      simp [Tasks.clonedPcb,hflag]
    refine (added_link t _ rfl hlt).family h ?_ ?_
    · intro j hj
      rw [Tasks.inner_pushTaskToSchedule,Tasks.inner_pushTaskToSchedule,
        Tasks.inner_setInner_of_ne _ _ (Nat.ne_of_gt hlt),hnew.1]
      by_cases he : j = self
      · rw [he,Tasks.inner_setInner_self,Tasks.inner_addTask_of_ne t _ (Nat.ne_of_lt hlt)]
        simp
      · rw [Tasks.inner_setInner_of_ne _ _ he,Tasks.inner_addTask_of_ne t _ (Nat.ne_of_lt hj)]
        simp [Ne.symm he]
    · intro p hp
      rw [Tasks.inner_pushTaskToSchedule,
        Tasks.inner_setInner_of_ne _ _ (Nat.ne_of_gt hlt)] at hp ⊢
      rw [hnew.1] at hp
      obtain rfl := Option.some.inj hp
      exact ⟨hself,hnew.2⟩

theorem clone_breaks (hst : ¬ Steady t (.clone flags))
    (hs : (TaskOp.clone flags).step t = .ok t') : ¬ InTree t' := by
  obtain ⟨self,pid,hself,-,rfl⟩ := clone_cases hs
  have hlt := h.current self hself
  simp only [Steady,not_forall] at hst
  obtain ⟨hflag,self',hself',hparent⟩ := hst
  cases hself.symm.trans hself'
  obtain ⟨p,hp⟩ := Option.ne_none_iff_exists'.mp hparent
  have hplt := h.older self hlt p hp
  rw [if_pos hflag]
  intro htree
  have hnew : (((t.addTask (t.clonedPcb self flags pid)).pushTaskToSchedule t.count).inner
      t.count).parent = some p := by
    rw [Tasks.inner_pushTaskToSchedule,Tasks.inner_addTask_self]
    simp [Tasks.clonedPcb,hflag,hp]
  obtain ⟨-,-,hlists⟩ := htree t.count (Nat.lt_succ_self _)
    (fun hw => Nat.lt_irrefl _ (h.waited _ hw)) p hnew
  have hcount := hlists p (Nat.lt_succ_of_lt (hplt.trans hlt))
  rw [if_pos rfl,Tasks.inner_pushTaskToSchedule,
    Tasks.inner_addTask_of_ne t _ (Nat.ne_of_lt (hplt.trans hlt))] at hcount
  have hmem : t.count ∈ (t.inner p).child := List.count_pos_iff.mp (by omega)
  exact Nat.lt_irrefl _ (h.members p (hplt.trans hlt) _ hmem).1

theorem waitpid_family {pid : ℤ} {ret : ChildStatus} {word : Option ℤ}
    (hw : t.waitpid pid = .ok (ret, word, t')) : Family t' := by
  obtain ⟨self,hself,rfl | ⟨idx,child,hidx,-,rfl⟩⟩ := waitpid_cases hw
  · exact h
  have hlt := h.current self hself
  have hmem : child ∈ (t.inner self).child := List.mem_of_getElem? hidx
  obtain ⟨hchild,hnot,hparent⟩ := h.members self hlt child hmem
  have hperm : (child :: (t.inner self).child.eraseIdx idx).Perm (t.inner self).child := by
    obtain ⟨hi,rfl⟩ := List.getElem?_eq_some_iff.mp hidx
    exact List.getElem_cons_eraseIdx_perm hi
  have hgone : child ∉ (t.inner self).child.eraseIdx idx := by
    obtain ⟨-,-,hlists⟩ := h.tree child hchild hnot self hparent
    have hone := hlists self hlt
    rw [if_pos rfl,← hperm.count_eq,List.count_cons_self] at hone
    exact List.count_eq_zero.mp (by omega)
  have hkin := parent_setInner t self
    (f := fun inner => { inner with child := inner.child.eraseIdx idx }) fun _ => ⟨rfl,rfl⟩
  have hself' : ((t.setInner self fun inner =>
      { inner with child := inner.child.eraseIdx idx }).inner self).child =
      (t.inner self).child.eraseIdx idx :=
    congrArg PCBInner.child (Tasks.inner_setInner_self t self _)
  have hrest : ∀ j, j ≠ self → ((t.setInner self fun inner =>
      { inner with child := inner.child.eraseIdx idx }).inner j).child = (t.inner j).child :=
    fun j hj => congrArg PCBInner.child (Tasks.inner_setInner_of_ne t _ hj)
  refine ⟨?_,?_,?_,?_,?_,h.queue,h.current,?_⟩
  · intro i hi hw p hp
    obtain ⟨hw,hne⟩ : i ∉ t.waited ∧ i ≠ child := by
      simpa [not_or] using (show i ∉ t.waited ++ [child] from hw)
    obtain ⟨hplt,hppid,hlists⟩ := h.tree i hi hw p ((hkin i).1.symm.trans hp)
    refine ⟨hplt,(hkin i).2.trans (hppid.trans (Tasks.pid_setInner t self p fun inner =>
      { inner with child := inner.child.eraseIdx idx }).symm),?_⟩
    intro j hj
    rw [← hlists j hj]
    by_cases he : j = self
    · have hcount : ((t.inner self).child.eraseIdx idx).count i = (t.inner self).child.count i := by
        rw [← hperm.count_eq,List.count_cons_of_ne (Ne.symm hne)]
      rw [he]
      exact (congrArg (List.count i) hself').trans hcount
    · exact congrArg (List.count i) (hrest j he)
  · intro j hj c hc
    have hold : c ∈ (t.inner j).child ∧ c ≠ child := by
      by_cases he : j = self
      · subst he
        have hc' : c ∈ (t.inner j).child.eraseIdx idx := hself' ▸ hc
        exact ⟨List.mem_of_mem_eraseIdx hc',fun hcc => hgone (hcc ▸ hc')⟩
      · have hc' : c ∈ (t.inner j).child := hrest j he ▸ hc
        refine ⟨hc',?_⟩
        rintro rfl
        exact he (Option.some.inj ((h.members j hj c hc').2.2.symm.trans hparent))
    obtain ⟨hclt,hcnot,hcparent⟩ := h.members j hj c hold.1
    refine ⟨hclt,?_,(hkin c).1.trans hcparent⟩
    simp [hcnot,hold.2]
  · exact fun i hi p hp => h.older i hi p ((hkin i).1.symm.trans hp)
  · exact ⟨h.origin.1,(hkin t.origin).1.trans h.origin.2⟩
  · intro i hi
    rcases List.mem_append.mp (show i ∈ t.waited ++ [child] from hi) with hw | hw
    · exact h.waited i hw
    · obtain rfl : i = child := by simpa using hw
      exact hchild
  · intro task pending he
    have hnone := (h.exiting task pending he).2.2
    rw [hself] at hnone
    cases hnone

theorem step_family (he : op.Enabled t) (hst : Steady t op)
    (hs : op.step t = .ok t') : Family t' := by
  cases op with
  | runTask =>
    cases hs
    exact runTask_family h he.2
  | initTask cwd => exact initTask_family h hs
  | suspend =>
    cases hs
    exact suspend_family h
  | clone flags => exact clone_family h hst hs
  | exit exitCode => exact exit_family h hs
  | exitRound =>
    cases hs
    exact exitRound_family h hst
  | wait4 pid options =>
    obtain ⟨ret,word,t₁,hw,hcase⟩ := wait4_cases hs
    have h₁ := waitpid_family h hw
    rcases hcase with rfl | rfl
    · exact h₁
    · exact suspend_family h₁

theorem step_breaks (hst : ¬ Steady t op) (hs : op.step t = .ok t') : ¬ InTree t' := by
  cases op with
  | clone flags => exact clone_breaks h hst hs
  | exitRound =>
    cases hs
    exact exitRound_breaks h hst
  | runTask | initTask _ | suspend | exit _ | wait4 _ _ => exact absurd trivial hst

end

theorem family_booted (cwd : List Char) : Family (Tasks.booted cwd) := by
  refine ⟨?_,?_,?_,⟨Nat.one_pos,rfl⟩,nofun,?_,nofun,nofun⟩
  · intro i _ _ p hp
    cases hp
  · intro j _ c hc
    cases hc
  · intro i _ p hp
    cases hp
  · intro i hi
    obtain rfl : i = 0 := by simpa [Tasks.booted] using hi
    exact Nat.one_pos

theorem InTreeAlong.tree (h : InTreeAlong t ops) : InTree t := by
  cases ops with
  | nil => exact h
  | cons op ops => exact h.1

theorem inTreeAlong_iff : ∀ (ops : List TaskOp) (t : Tasks), Family t → EnabledAlong t ops →
    (InTreeAlong t ops ↔ SteadyAlong t ops) := by
  intro ops
  induction ops with
  | nil => exact fun t h _ => iff_of_true h.tree trivial
  | cons op ops ih =>
    intro t h he
    constructor
    · intro hall t' hs
      have hst : Steady t op := by
        by_contra hst
        exact step_breaks h hst hs (hall.2 t' hs).tree
      exact ⟨hst,(ih t' (step_family h he.1 hst hs) (he.2 t' hs)).mp (hall.2 t' hs)⟩
    · intro hst
      refine ⟨h.tree,fun t' hs => ?_⟩
      obtain ⟨hop,hrest⟩ := hst t' hs
      exact (ih t' (step_family h he.1 hop hs) (he.2 t' hs)).mpr hrest

/-- From boot, the tree of processes stays consistent through a sequence of calls exactly if no
process with a parent asks for a sibling and none but the origin exits while it has children. -/
theorem process_tree_iff (cwd : List Char) (ops : List TaskOp)
    (enabled : EnabledAlong (Tasks.booted cwd) ops) :
    InTreeAlong (Tasks.booted cwd) ops ↔ SteadyAlong (Tasks.booted cwd) ops :=
  inTreeAlong_iff ops _ (family_booted cwd) enabled

theorem EnabledAlong.step (h : op.Enabled t)
    (hs : op.step t = .ok t') (rest : EnabledAlong t' ops) : EnabledAlong t (op :: ops) := by
  refine ⟨h,fun u hu => ?_⟩
  rw [hs] at hu
  cases hu
  exact rest

theorem SteadyAlong.step (h : Steady t op)
    (hs : op.step t = .ok t') (rest : SteadyAlong t' ops) : SteadyAlong t (op :: ops) := by
  intro u hu
  rw [hs] at hu
  cases hu
  exact ⟨h,rest⟩

/-- A child that exits and is waited for. -/
def forkAndWait : List TaskOp :=
  [.runTask, .clone CloneFlags.SIGCHLD, .suspend, .runTask, .exit 0, .exitRound, .runTask,
    .wait4 (-1) 0]

theorem forkAndWait_inTree : InTreeAlong (Tasks.booted ['/']) forkAndWait := by
  refine (process_tree_iff ['/'] forkAndWait ?_).mpr ?_
  · exact .step (by decide) rfl (.step (by decide) rfl (.step (by decide) rfl (.step (by decide) rfl
      (.step (by decide) rfl (.step (by decide) rfl (.step (by decide) rfl (.step (by decide) rfl
        trivial)))))))
  · exact .step trivial rfl (.step (fun h => absurd h (by decide)) rfl (.step trivial rfl
      (.step trivial rfl (.step trivial rfl
        (.step nofun rfl (.step trivial rfl (.step trivial rfl trivial)))))))

/-- A child that makes a sibling. -/
def forkAndSibling : List TaskOp :=
  [.runTask, .clone CloneFlags.SIGCHLD, .suspend, .runTask,
    .clone (CloneFlags.SIGCHLD ||| CloneFlags.CLONE_PARENT)]

/-- The sibling has the origin as its parent and is in no list of children, so no `wait4` finds
it. -/
theorem sibling_in_no_list : EnabledAlong (Tasks.booted ['/']) forkAndSibling ∧
    ¬ InTreeAlong (Tasks.booted ['/']) forkAndSibling := by
  constructor
  · exact .step (by decide) rfl (.step (by decide) rfl (.step (by decide) rfl (.step (by decide) rfl
      (.step (by decide) rfl trivial))))
  · intro h
    have htree := ((((h.2 _ rfl).2 _ rfl).2 _ rfl).2 _ rfl).2 _ rfl
    have hcount := (htree.tree 2 (by decide) (by decide) 0 rfl).2.2 0 (by decide)
    exact absurd hcount (by decide)

end Family

end DuckOs.ProcessTree
