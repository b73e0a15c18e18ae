import DuckOs.RoundRobin

namespace DuckOs.WaitSelection
open ExecutionRules AddressModel ProcessModel RoundRobin

variable {t t' : Tasks} {op : TaskOp} {self : ℕ} {pid : ℤ} {selects : PCB → Bool}

/-- The task that has the hart has not exited. -/
def Alive (t : Tasks) : Prop := ∀ i ∈ t.current, (t.inner i).status ≠ .Dead

theorem step_alive (h : Alive t) (hs : op.step t = .ok t') : Alive t' := by
  intro i hi
  cases step_moves hs with
  | same hs =>
    rw [hs.status]
    exact h i (hs.current ▸ hi)
  | run _ _ _ _ current marks =>
    obtain rfl := Option.some.inj (current.symm.trans hi)
    rw [marks,if_pos rfl]
    nofun
  | yield _ _ _ current =>
    rw [current] at hi
    cases hi
  | exit _ _ _ current =>
    rw [current] at hi
    cases hi
  | push _ _ current marks =>
    rw [marks]
    split
    · nofun
    · exact h i (current ▸ hi)

/-- The tasks after any calls, whoever exits. -/
def Reached (cwd : List Char) (s : Tasks × List ℕ) : Prop :=
  Runs exec (fun op _ s => op.Enabled s.1) () (Tasks.booted cwd, []) () s

theorem reached_alive {cwd : List Char} {s : Tasks × List ℕ} (h : Reached cwd s) : Alive s.1 := by
  refine h.invariant (fun _ s => Alive s.1) ?_ nofun
  intro op _ s ha _
  unfold Holds
  split
  · rename_i s' hs
    exact step_alive ha (exec_eq_ok hs).1
  · trivial

/-- Whom the caller asks for. -/
def Matches (t : Tasks) (self : ℕ) (pid : ℤ) (child : ℕ) : Prop :=
  (0 < pid ∧ ((t.pcb child).pid : ℤ) = pid) ∨ pid = -1 ∨
    (pid = 0 ∧ (t.pcb child).tgid = (t.pcb self).tgid) ∨
    (pid < -1 ∧ (t.pcb child).tgid = pid.natAbs)

instance (t : Tasks) (self : ℕ) (pid : ℤ) (child : ℕ) : Decidable (Matches t self pid child) :=
  inferInstanceAs (Decidable (_ ∨ _))

def MatchesDead (t : Tasks) (self : ℕ) (pid : ℤ) (child : ℕ) : Prop :=
  Matches t self pid child ∧ (t.inner child).status = .Dead

instance (t : Tasks) (self : ℕ) (pid : ℤ) (child : ℕ) : Decidable (MatchesDead t self pid child) :=
  inferInstanceAs (Decidable (_ ∧ _))

/-- The law of the selection, and what `sys_wait4` makes of it. -/
structure SelectsChild (t : Tasks) (caller : ℕ) (pid : ℤ) (options : ℕ) (ret : ChildStatus)
    (t' : Tasks) : Prop where
  notFound : ret = .NotFound ↔ ∀ c ∈ (t.inner caller).child, ¬ Matches t caller pid c
  success : (∃ n, ret = .Success n) ↔ ∃ c ∈ (t.inner caller).child, MatchesDead t caller pid c
  first : ∀ before c after, (t.inner caller).child = before ++ c :: after →
    MatchesDead t caller pid c → (∀ b ∈ before, ¬ MatchesDead t caller pid b) →
    ret = .Success (t.pcb c).pid ∧ (t'.inner caller).child = before ++ after
  unchanged : ret = .NotFound ∨ ret = .NotZombie → t' = t
  answers : (∀ c ∈ (t.inner caller).child, ¬ Matches t caller pid c) →
    ∃ e, t.sysWait4 pid options = .ok (some (.error e), t)

theorem selector_matches (t : Tasks) (self : ℕ) (pid : ℤ) (child : ℕ) :
    (t.selector self pid).1 (t.pcb child) = true ↔ Matches t self pid child := by
  unfold Tasks.selector Matches
  split_ifs
  · simp only [beq_iff_eq]
    omega
  · simp only [true_iff]
    omega
  · simp only [beq_iff_eq]
    omega
  · simp only [beq_iff_eq]
    omega

theorem selector_start (t : Tasks) (self : ℕ) (pid : ℤ) :
    (t.selector self pid).2 = if pid = -1 then .NotZombie else .NotFound := by
  unfold Tasks.selector
  split_ifs <;> first | rfl | omega

/-- Without a dead child the loop ends on what the last child selected says. -/
theorem scan_alive (t : Tasks) (self : ℕ) (children : List ℕ) (idx : ℕ) (start : ChildStatus)
    (h : ∀ c ∈ children, selects (t.pcb c) = true → t.isDead self c = false) :
    t.scan self selects idx children start =
      (if ∃ c ∈ children, selects (t.pcb c) = true then .NotZombie else start, none) := by
  induction children generalizing idx start with
  | nil => simp [Tasks.scan]
  | cons child rest ih =>
    have hrest := fun idx start => ih idx start fun c hc => h c (List.mem_cons_of_mem _ hc)
    by_cases hs : selects (t.pcb child) = true
    · simp [Tasks.scan,hs,h child List.mem_cons_self hs,hrest]
    · simp [Tasks.scan,hs,hrest]

theorem scan_first (t : Tasks) (self : ℕ) (before : List ℕ) (child : ℕ) (after : List ℕ) (idx : ℕ)
    (start : ChildStatus)
    (h : ∀ b ∈ before, selects (t.pcb b) = true → t.isDead self b = false)
    (hs : selects (t.pcb child) = true) (hd : t.isDead self child = true) :
    t.scan self selects idx (before ++ child :: after) start =
      (.Success (t.pcb child).pid, some (idx + before.length)) := by
  induction before generalizing idx start with
  | nil => simp [Tasks.scan,hs,hd]
  | cons b before ih =>
    have hrest := fun start => ih (idx + 1) start fun c hc => h c (List.mem_cons_of_mem _ hc)
    have hidx : idx + 1 + before.length = idx + (b :: before).length := by
      rw [List.length_cons]
      omega
    by_cases hb : selects (t.pcb b) = true
    · simp [Tasks.scan,hb,h b List.mem_cons_self hb,hrest,hidx]
    · simp [Tasks.scan,hb,hrest,hidx]

section

variable (h : Alive t) (hself : t.current = some self)
include h hself

theorem isDead_iff (child : ℕ) : t.isDead self child = true ↔ (t.inner child).status = .Dead := by
  simp only [Tasks.isDead,Bool.and_eq_true,bne_iff_ne,beq_iff_eq,and_iff_right_iff_imp]
  intro hd he
  exact h self hself (he ▸ hd)

theorem selected_alive {c : ℕ}
    (hc : ¬ MatchesDead t self pid c) (hs : (t.selector self pid).1 (t.pcb c) = true) :
    t.isDead self c = false := by
  rw [Bool.eq_false_iff,ne_eq,isDead_iff h hself]
  exact fun hd => hc ⟨(selector_matches t self pid c).1 hs,hd⟩

theorem waitpid_none (hnone : ∀ c ∈ (t.inner self).child, ¬ MatchesDead t self pid c) :
    t.waitpid pid = .ok (if ∃ c ∈ (t.inner self).child, Matches t self pid c then .NotZombie
      else if pid = -1 then .NotZombie else .NotFound, none, t) := by
  have hscan := scan_alive t self (t.inner self).child 0 (t.selector self pid).2
    fun c hc => selected_alive h hself (hnone c hc)
  simp only [selector_matches,selector_start] at hscan
  simp only [Tasks.waitpid,hself,selector_start,hscan]

theorem waitpid_first {before after : List ℕ} {c : ℕ}
    (hsplit : (t.inner self).child = before ++ c :: after) (hc : MatchesDead t self pid c)
    (hb : ∀ b ∈ before, ¬ MatchesDead t self pid b) :
    ∃ word t', t.waitpid pid = .ok (.Success (t.pcb c).pid, word, t') ∧
      (t'.inner self).child = before ++ after := by
  have hscan := scan_first t self before c after 0 (t.selector self pid).2
    (fun b hm => selected_alive h hself (hb b hm))
    ((selector_matches t self pid c).2 hc.1) ((isDead_iff h hself c).2 hc.2)
  refine ⟨some (Tasks.statusWord (t.inner c).exitCode),{ t.setInner self fun inner =>
    { inner with child := inner.child.eraseIdx before.length } with
      waited := t.waited ++ [c] },?_,?_⟩
  · simp [Tasks.waitpid,hself,hsplit,hscan]
  · have hchild := congrArg PCBInner.child (Tasks.inner_setInner_self t self
      fun inner => { inner with child := inner.child.eraseIdx before.length })
    refine hchild.trans ?_
    rw [hsplit,List.eraseIdx_append_of_length_le (Nat.le_refl _),Nat.sub_self]
    rfl

theorem dead_selects (options : ℕ) (hdead : ∃ c ∈ (t.inner self).child, MatchesDead t self pid c) :
    ∃ ret word t', t.waitpid pid = .ok (ret, word, t') ∧
      SelectsChild t self pid options ret t' := by
  have hfind : ((t.inner self).child.find? fun c => MatchesDead t self pid c).isSome := by
    simpa using hdead
  obtain ⟨d,hd⟩ := Option.isSome_iff_exists.1 hfind
  obtain ⟨hmd,before,after,hsplit,hb⟩ := List.find?_eq_some_iff_append.1 hd
  simp only [decide_eq_true_eq,Bool.not_eq_true',decide_eq_false_iff_not] at hmd hb
  obtain ⟨word,t',hw,hchild⟩ := waitpid_first h hself hsplit hmd hb
  have hmem : d ∈ (t.inner self).child := by simp [hsplit]
  refine ⟨_,word,t',hw,iff_of_false nofun fun hn => hn d hmem hmd.1,
    iff_of_true ⟨_,rfl⟩ hdead,?_,by simp,fun hn => absurd hmd.1 (hn d hmem)⟩
  intro before' c after' hsplit' hc hb'
  obtain ⟨word',t'',hw',hchild'⟩ := waitpid_first h hself hsplit' hc hb'
  have heq := hw.symm.trans hw'
  simp only [Except.ok.injEq,Prod.mk.injEq] at heq
  obtain ⟨hret,-,rfl⟩ := heq
  exact ⟨hret,hchild'⟩

end

/-- `waitpid` follows the law, and `sys_wait4` answers where no child matches, exactly if a child
matches, or the caller does not ask for any child and the options are known ones. -/
theorem waitpid_selects_iff (cwd : List Char) (s : Tasks × List ℕ) (self : ℕ) (pid : ℤ)
    (options : ℕ) (reached : Reached cwd s) (current : s.1.current = some self) :
    (∃ ret word t', s.1.waitpid pid = .ok (ret, word, t') ∧
      SelectsChild s.1 self pid options ret t') ↔
    (∃ c ∈ (s.1.inner self).child, Matches s.1 self pid c) ∨
      (pid ≠ -1 ∧ validWaitOptions options = true) := by
  have ha := reached_alive reached
  generalize s.1 = t at *
  by_cases hdead : ∃ c ∈ (t.inner self).child, MatchesDead t self pid c
  · obtain ⟨d,hd,hmd⟩ := hdead
    exact iff_of_true (dead_selects ha current options ⟨d,hd,hmd⟩) (.inl ⟨d,hd,hmd.1⟩)
  have hnone : ∀ c ∈ (t.inner self).child, ¬ MatchesDead t self pid c := fun c hc hm =>
    hdead ⟨c,hc,hm⟩
  have hw := waitpid_none ha current hnone
  have hfirst : ∀ (ret : ChildStatus) before c after, (t.inner self).child = before ++ c :: after →
      MatchesDead t self pid c → (∀ b ∈ before, ¬ MatchesDead t self pid b) →
      ret = .Success (t.pcb c).pid ∧ (t.inner self).child = before ++ after :=
    fun _ _ c _ hsplit hc => absurd hc (hnone c (by simp [hsplit]))
  by_cases hm : ∃ c ∈ (t.inner self).child, Matches t self pid c
  · obtain ⟨m,hmem,hmatch⟩ := hm
    rw [if_pos ⟨m,hmem,hmatch⟩] at hw
    exact iff_of_true ⟨_,_,t,hw,iff_of_false nofun fun hn => hn m hmem hmatch,
      iff_of_false nofun hdead,hfirst _,fun _ => rfl,fun hn => absurd hmatch (hn m hmem)⟩
      (.inl ⟨m,hmem,hmatch⟩)
  rw [if_neg hm] at hw
  have hno : ∀ c ∈ (t.inner self).child, ¬ Matches t self pid c := fun c hc hmc => hm ⟨c,hc,hmc⟩
  rw [or_iff_right hm]
  constructor
  · rintro ⟨ret,word,t',hret,law⟩
    rw [law.notFound.2 hno,hw] at hret
    have hpid : pid ≠ -1 := by
      intro he
      rw [if_pos he] at hret
      cases hret
    obtain ⟨e,hanswer⟩ := law.answers hno
    refine ⟨hpid,?_⟩
    unfold Tasks.sysWait4 at hanswer
    split at hanswer
    · assumption
    · cases hanswer
  · rintro ⟨hpid,hvalid⟩
    rw [if_neg hpid] at hw
    refine ⟨_,_,t,hw,iff_of_true rfl hno,iff_of_false nofun hdead,hfirst _,fun _ => rfl,
      fun _ => ⟨.EINVAL,?_⟩⟩
    simp [Tasks.sysWait4,hvalid,hw]

/-- The first task has two children, and the second of them has exited. -/
def orphaned : List TaskOp := [.runTask, .clone CloneFlags.SIGCHLD, .clone CloneFlags.SIGCHLD,
  .suspend, .runTask, .suspend, .runTask, .exit 7, .exitRound, .runTask]

theorem waitpid_selects_dead : ∃ s ret word t', Reached ['/'] s ∧ s.1.current = some 0 ∧
    (s.1.inner 0).child = [1, 2] ∧ s.1.waitpid (-1) = .ok (ret, word, t') ∧
    SelectsChild s.1 0 (-1) 0 ret t' := by
  have computed : returnsWith (orphaned.foldlM
      (guarded exec (fun op _ s => op.Enabled s.1) .assertion) ()) (Tasks.booted ['/'], [])
      (fun _ s => s.1.current = some 0 ∧ (s.1.inner 0).child = [1,2]) = true := by
    decide +kernel
  obtain ⟨_,s,ran,hs⟩ := returnsWith_elim computed
  obtain ⟨current,hchild⟩ := of_decide_eq_true hs
  have reached : Reached ['/'] s := Runs.of_guarded _ orphaned .refl ran
  have hsome : ∃ c ∈ (s.1.inner 0).child, Matches s.1 0 (-1) c :=
    ⟨1,by simp [hchild],.inr (.inl rfl)⟩
  obtain ⟨ret,word,t',hw,law⟩ :=
    (waitpid_selects_iff ['/'] s 0 (-1) 0 reached current).mpr (.inl hsome)
  exact ⟨s,ret,word,t',reached,current,hchild,hw,law⟩

/-- A task without children that waits for any child gets no answer: it gives up the hart, and is
where it was when it has the hart again. -/
theorem childless_waits : ∃ s, Reached ['/'] s ∧ s.1.current = some 0 ∧
    (s.1.inner 0).child = [] ∧ s.1.waitpid (-1) = .ok (.NotZombie, none, s.1) ∧
    s.1.sysWait4 (-1) 0 = .ok (none, s.1.suspendCurrentTask) ∧
    s.1.suspendCurrentTask.runTask = s.1 := by
  refine ⟨((Tasks.booted ['/']).runTask, [0]),Runs.of_guarded .assertion [.runTask] .refl rfl,rfl,
    rfl,rfl,rfl,?_⟩
  simp [Tasks.suspendCurrentTask,Tasks.runTask,Tasks.booted,Tasks.setStatus,Tasks.setInner,
    Tasks.pushTaskToSchedule,Tasks.inner]

end DuckOs.WaitSelection
