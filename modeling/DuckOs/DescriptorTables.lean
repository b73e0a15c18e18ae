import DuckOs.FdTables

namespace DuckOs.DescriptorTables
open ExecutionRules PermissionFlags VfsModel FdTables FdTables.FdTable
open Ext4FileModel (OpenFlags)

variable {δ : Type} {t : FdTable} {fd p ti : ℕ} {info : FdInfo} {w : World δ}

section Operations

/-- The operations on a table; a process that forks goes on with its own, its child with the
copy. -/
inductive TableOp where
  | insertGetFd (info : FdInfo)
  | insertSpecFd (newFd : ℕ) (info : FdInfo)
  | close (fd : ℕ)
  | closeExec
  | fromCloneCopy

def TableOp.call : TableOp → TableM Unit
  | .insertGetFd info => do
    let _ ← FdTable.insertGetFd info
    pure ()
  | .insertSpecFd newFd info => do
    let _ ← FdTable.insertSpecFd newFd info
    pure ()
  | .close fd => FdTable.close fd
  | .closeExec => FdTable.closeExec
  | .fromCloneCopy => fun t => FdTable.fromCloneCopy t initFdtable

def TableOp.exec (op : TableOp) (_ : Unit) : TableM Unit := settled op.call

/-- How the operations are used: with a number that the bitmap has, on a descriptor that is
open. -/
def TableOp.Used (t : FdTable) : TableOp → Prop
  | .insertSpecFd newFd _ => newFd < maxFd
  | .close fd => t.lookup fd ≠ none
  | _ => True

/-- The tables that the operations lead to. -/
def Reachable (t : FdTable) : Prop :=
  Runs TableOp.exec (fun op _ t => op.Used t) () initFdtable () t

end Operations

structure TableInv (t : FdTable) : Prop where
  free : ∀ fd, fd ∈ t.free ↔ fd < maxFd ∧ t.lookup fd = none
  bound : ∀ fd, t.lookup fd ≠ none → fd < maxFd

/-- The table with a descriptor put in. -/
def taken (t : FdTable) (fd : ℕ) (info : FdInfo) : FdTable :=
  ⟨t.fdTable.insert fd info, t.free.erase fd⟩

def given (t : FdTable) (fd : ℕ) : FdTable := ⟨t.fdTable.erase fd, Insert.insert fd t.free⟩

theorem lookup_taken (t : FdTable) (fd n : ℕ) (info : FdInfo) :
    (taken t fd info).lookup n = if n = fd then some info else t.lookup n := by
  by_cases h : n = fd
  · subst h
    simp [taken,FdTable.lookup]
  · simp [taken,FdTable.lookup,h,AList.lookup_insert_ne h]

theorem lookup_given (t : FdTable) (fd n : ℕ) :
    (given t fd).lookup n = if n = fd then none else t.lookup n := by
  by_cases h : n = fd
  · subst h
    simp [given,FdTable.lookup]
  · simp [given,FdTable.lookup,h,AList.lookup_erase_ne h]

theorem lookup_eq_some : t.lookup fd = some info ↔ ⟨fd, info⟩ ∈ t.fdTable.entries :=
  AList.mem_lookup_iff

theorem lookup_eq_none : t.lookup fd = none ↔ fd ∉ t.fdTable := AList.lookup_eq_none

theorem TableInv.taken (inv : TableInv t) (hfd : fd < maxFd) (info : FdInfo) :
    TableInv (taken t fd info) := by
  refine ⟨fun n => ?_,fun n hn => ?_⟩
  · rw [lookup_taken]
    by_cases h : n = fd <;> simp [DescriptorTables.taken,h,inv.free]
  · rw [lookup_taken] at hn
    by_cases h : n = fd
    · exact h ▸ hfd
    · exact inv.bound n (by simpa [h] using hn)

theorem TableInv.given (inv : TableInv t) (hfd : fd < maxFd) : TableInv (given t fd) := by
  refine ⟨fun n => ?_,fun n hn => ?_⟩
  · rw [lookup_given]
    by_cases h : n = fd <;> simp [DescriptorTables.given,h,inv.free,hfd]
  · rw [lookup_given] at hn
    by_cases h : n = fd
    · exact h ▸ hfd
    · exact inv.bound n (by simpa [h] using hn)

theorem lookup_init (fd : ℕ) : initFdtable.lookup fd =
    if fd = 0 then some ⟨.stdin, OpenFlags.O_RDONLY⟩
    else if fd = 1 then some ⟨.stdout, OpenFlags.O_WRONLY⟩
    else if fd = 2 then some ⟨.stderr, OpenFlags.O_WRONLY⟩ else none := by
  split_ifs with h₀ h₁ h₂
  · subst h₀
    rfl
  · subst h₁
    rfl
  · subst h₂
    rfl
  · have hkeys : initFdtable.fdTable.keys = [0,1,2] := rfl
    rw [lookup_eq_none,AList.mem_keys,hkeys]
    simp [h₀,h₁,h₂]

theorem init_inv : TableInv initFdtable := by
  refine ⟨fun fd => ?_,fun fd hfd => ?_⟩
  · rw [lookup_init]
    change fd ∈ Finset.Ico 3 maxFd ↔ _
    split_ifs <;> simp <;> omega
  · rw [lookup_init] at hfd
    split_ifs at hfd <;> simp_all [maxFd]

/-- The number that the bitmap gives. -/
def lowest (t : FdTable) : Option ℕ := (List.range maxFd).find? (· ∈ t.free)

theorem lowest_some (h : lowest t = some fd) :
    fd ∈ t.free ∧ fd < maxFd ∧ ∀ n < fd, n ∉ t.free := by
  obtain ⟨hmem,hlt,hbelow⟩ := List.find?_range_eq_some.mp h
  exact ⟨by simpa using hmem,by simpa using hlt,fun n hn => by simpa using hbelow n hn⟩

theorem lowest_none (h : lowest t = none) : ∀ n < maxFd, n ∉ t.free := by
  intro n hn
  simpa using List.find?_range_eq_none.mp h n hn

theorem allocFd_eq (t : FdTable) : allocFd t = match lowest t with
    | some fd => .ok (some fd) { t with free := t.free.erase fd }
    | none => .ok none t := by
  unfold allocFd lowest
  rw [get_bind]
  cases (List.range maxFd).find? (· ∈ t.free) <;> rfl

theorem insertGetFd_some (h : lowest t = some fd) (info : FdInfo) :
    FdTable.insertGetFd info t = .ok fd (taken t fd info) := by
  have halloc := allocFd_eq t
  rw [h] at halloc
  exact bind_ok halloc

theorem insertGetFd_none (h : lowest t = none) (info : FdInfo) :
    FdTable.insertGetFd info t = .error (.errno .EBADF) t := by
  have halloc := allocFd_eq t
  rw [h] at halloc
  exact bind_ok halloc

theorem allocSpecFd_eq (hfd : fd < maxFd) (t : FdTable) : allocSpecFd fd t =
    if fd ∈ t.free then .ok true { t with free := t.free.erase fd } else .ok false t := by
  unfold allocSpecFd
  rw [get_bind,if_neg (by omega)]
  split <;> rfl

theorem insertSpecFd_free (hfd : fd < maxFd) (h : fd ∈ t.free) (info : FdInfo) :
    FdTable.insertSpecFd fd info t = .ok true (taken t fd info) := by
  have halloc := allocSpecFd_eq hfd t
  rw [if_pos h] at halloc
  unfold FdTable.insertSpecFd
  rw [if_pos hfd.le,bind_ok halloc]
  rfl

theorem insertSpecFd_used (hfd : fd < maxFd) (h : fd ∉ t.free) (info : FdInfo) :
    FdTable.insertSpecFd fd info t = .ok false t := by
  have halloc := allocSpecFd_eq hfd t
  rw [if_neg h] at halloc
  unfold FdTable.insertSpecFd
  rw [if_pos hfd.le,bind_ok halloc]
  rfl

theorem close_eq (inv : TableInv t) (h : t.lookup fd ≠ none) :
    FdTable.close fd t = .ok () (given t fd) := by
  have hlt := inv.bound fd h
  have hfree : fd ∉ t.free := fun hmem => h ((inv.free fd).mp hmem).2
  have hdealloc : dealloc fd { t with fdTable := t.fdTable.erase fd } = .ok () (given t fd) := by
    unfold dealloc
    rw [get_bind,if_neg (by omega),if_neg hfree]
    rfl
  exact hdealloc

theorem execFds_spec (t : FdTable) :
    (execFds t).Nodup ∧ ∀ fd, fd ∈ execFds t ↔
      ∃ info, t.lookup fd = some info ∧ contains info.flags OpenFlags.O_CLOEXEC := by
  constructor
  · exact List.Nodup.sublist (List.filter_sublist.map _) t.fdTable.nodupKeys
  · intro fd
    simp only [execFds,List.mem_map,List.mem_filter,lookup_eq_some]
    constructor
    · rintro ⟨⟨_,info⟩,⟨hmem,hflag⟩,rfl⟩
      exact ⟨info,hmem,hflag⟩
    · rintro ⟨info,hmem,hflag⟩
      exact ⟨⟨fd,info⟩,⟨hmem,hflag⟩,rfl⟩

theorem closeExec_holds (inv : TableInv t) :
    Holds FdTable.closeExec t (fun _ t' => TableInv t' ∧ ∀ fd, t'.lookup fd =
      if fd ∈ execFds t then none else t.lookup fd) (Never _ _) := by
  obtain ⟨hnodup,hmem⟩ := execFds_spec t
  refine holds_get ?_
  refine (holds_foldlM (fun rest _ t' => TableInv t' ∧ rest.Nodup ∧ ∀ fd,
    (fd ∈ rest → fd ∈ execFds t) ∧ t'.lookup fd =
      if fd ∈ execFds t ∧ fd ∉ rest then none else t.lookup fd) ?_ (execFds t) () t
      ⟨inv,hnodup,fun fd => ⟨fun h => h,by simp⟩⟩).imp ?_
  · rintro fd rest _ t' ⟨inv',hnodup',hrest⟩
    obtain ⟨hnew,hnodup''⟩ := List.nodup_cons.mp hnodup'
    obtain ⟨hexec,hlook⟩ := hrest fd
    have hopen : t'.lookup fd ≠ none := by
      obtain ⟨info,hinfo,-⟩ := (hmem fd).mp (hexec List.mem_cons_self)
      simp [hlook,hinfo]
    refine holds_ok (close_eq inv' hopen) ⟨inv'.given (inv'.bound fd hopen),hnodup'',fun n => ?_⟩
    obtain ⟨hn,hlookn⟩ := hrest n
    refine ⟨fun h => hn (List.mem_cons_of_mem _ h),?_⟩
    rw [lookup_given,hlookn]
    by_cases h : n = fd
    · subst h
      simp [hnew,hexec List.mem_cons_self]
    · simp [h]
  · rintro _ t' ⟨inv',-,h⟩
    exact ⟨inv',fun fd => by simpa using (h fd).2⟩

theorem copyFd_eq (e : Sigma fun _ : ℕ => FdInfo) (hlow : ¬ e.1 < 3) (hlt : e.1 < maxFd)
    (h : e.1 ∈ t.free) : copyFd e t = .ok () (taken t e.1 e.2) := by
  have halloc := allocSpecFd_eq hlt t
  rw [if_pos h] at halloc
  unfold copyFd
  rw [if_neg hlow,bind_ok halloc]
  rfl

theorem fromCloneCopy_holds (inv : TableInv t) :
    Holds (FdTable.fromCloneCopy t) initFdtable (fun _ t' => TableInv t' ∧ ∀ fd,
      t'.lookup fd =
        if fd < 3 then initFdtable.lookup fd else t.lookup fd) (Never _ _) := by
  refine (holds_foldlM (fun rest _ t' => TableInv t' ∧ (rest.map Sigma.fst).Nodup ∧
    (∀ e ∈ rest, t.lookup e.1 = some e.2) ∧ ∀ fd, t'.lookup fd =
      if fd < 3 then initFdtable.lookup fd
      else if fd ∈ rest.map Sigma.fst then none else t.lookup fd) ?_
      t.fdTable.entries () initFdtable
      ⟨init_inv,t.fdTable.nodupKeys,fun e he => lookup_eq_some.mpr he,fun fd => ?_⟩).imp ?_
  · rintro e rest _ t' ⟨inv',hnodup,hold,hlook⟩
    obtain ⟨hnew,hnodup'⟩ := List.nodup_cons.mp hnodup
    have hrest := fun e he => hold e (List.mem_cons_of_mem _ he)
    have holde := hold e List.mem_cons_self
    have hcons : ∀ fd, fd ≠ e.1 → (fd ∈ (e :: rest).map Sigma.fst ↔ fd ∈ rest.map Sigma.fst) :=
      fun fd hne => by rw [List.map_cons,List.mem_cons,or_iff_right hne]
    by_cases hlow : e.1 < 3
    · have hcopy : copyFd e t' = .ok () t' := by
        unfold copyFd
        rw [if_pos hlow]
        rfl
      refine holds_ok hcopy ⟨inv',hnodup',hrest,fun fd => ?_⟩
      rw [hlook fd]
      by_cases hfd : fd < 3
      · simp [hfd]
      · simp only [if_neg hfd,hcons fd fun h => hfd (h ▸ hlow)]
    · have hlt : e.1 < maxFd := inv.bound e.1 (by simp [holde])
      have hfree : e.1 ∈ t'.free := by
        rw [inv'.free,hlook]
        simp [hlow,hlt]
      refine holds_ok (copyFd_eq e hlow hlt hfree) ⟨inv'.taken hlt e.2,hnodup',hrest,fun fd => ?_⟩
      rw [lookup_taken,hlook fd]
      by_cases hfd : fd = e.1
      · rw [hfd,if_pos rfl,if_neg hlow,if_neg hnew,holde]
      · simp only [if_neg hfd,hcons fd hfd]
  · rw [lookup_init]
    by_cases hfd : fd < 3
    · rw [if_pos hfd]
    · rw [if_neg (by omega),if_neg (by omega),if_neg (by omega),if_neg hfd]
      split_ifs with h
      · rfl
      · exact (lookup_eq_none.mpr h).symm
  · rintro _ t' ⟨inv',-,-,h⟩
    exact ⟨inv',fun fd => by simpa using h fd⟩

theorem call_inv (inv : TableInv t) (op : TableOp) (hop : op.Used t) :
    Holds op.call t (fun _ t' => TableInv t') fun e t' => TableInv t' ∧ e = .errno .EBADF := by
  cases op with
  | insertGetFd info =>
    cases h : lowest t with
    | none => exact holds_error (bind_error (insertGetFd_none h info)) ⟨inv,rfl⟩
    | some fd =>
      exact holds_bind_ok (insertGetFd_some h info)
        (holds_pure (inv.taken (lowest_some h).2.1 info))
  | insertSpecFd newFd info =>
    by_cases h : newFd ∈ t.free
    · exact holds_bind_ok (insertSpecFd_free hop h info) (holds_pure (inv.taken hop info))
    · exact holds_bind_ok (insertSpecFd_used hop h info) (holds_pure inv)
  | close fd => exact holds_ok (close_eq inv hop) (inv.given (inv.bound fd hop))
  | closeExec => exact (closeExec_holds inv).mono (fun _ _ h => h.1) fun _ _ h => h.elim
  | fromCloneCopy => exact (fromCloneCopy_holds inv).mono (fun _ _ h => h.1) fun _ _ h => h.elim

theorem reachable_inv (run : Reachable t) : TableInv t := by
  refine Runs.invariant (fun _ t => TableInv t) (fun op _ t inv hop => ?_) run init_inv
  exact settled_holds ((call_inv inv op hop).onError fun _ _ h _ _ => h.1)

/-- A number below the limit is free exactly if it is not in the table, no operation stops, and a
new descriptor gets the least number that is not in use, unless all are. -/
theorem descriptors_agree (run : Reachable t) :
    (∀ fd < maxFd, fd ∈ t.free ↔ fd ∉ t.fdTable) ∧
    (∀ op : TableOp, op.Used t → ∀ p t', op.call t ≠ .error (.panic p) t') ∧
    ∀ info, (∃ fd t', FdTable.insertGetFd info t = .ok fd t' ∧ fd < maxFd ∧ fd ∉ t.fdTable ∧
        ∀ n < fd, n ∈ t.fdTable) ∨
      FdTable.insertGetFd info t = .error (.errno .EBADF) t ∧ ∀ n < maxFd, n ∈ t.fdTable := by
  have inv := reachable_inv run
  have hfree : ∀ fd < maxFd, fd ∈ t.free ↔ fd ∉ t.fdTable := fun fd hfd => by
    rw [inv.free,lookup_eq_none]
    simp [hfd]
  refine ⟨hfree,fun op hop p t' hstop => ?_,fun info => ?_⟩
  · have h := (call_inv inv op hop).of_error hstop
    cases h.2
  · cases h : lowest t with
    | none =>
      refine .inr ⟨insertGetFd_none h info,fun n hn => ?_⟩
      by_contra hnot
      exact lowest_none h n hn ((hfree n hn).mpr hnot)
    | some fd =>
      obtain ⟨hmem,hlt,hbelow⟩ := lowest_some h
      refine .inl ⟨fd,_,insertGetFd_some h info,hlt,(hfree fd hlt).mp hmem,fun n hn => ?_⟩
      by_contra hnot
      exact hbelow n hn ((hfree n (hn.trans hlt)).mpr hnot)

theorem exec_close (inv : TableInv t) (h : t.lookup fd ≠ none) :
    TableOp.exec (.close fd) () t = .ok () (given t fd) := by
  simp only [TableOp.exec,TableOp.call,settled,close_eq inv h]

theorem exec_insertSpecFd (hfd : fd < maxFd) (h : fd ∈ t.free) (info : FdInfo) :
    TableOp.exec (.insertSpecFd fd info) () t = .ok () (taken t fd info) := by
  have hcall : TableOp.call (.insertSpecFd fd info) t = .ok () (taken t fd info) :=
    bind_ok (insertSpecFd_free hfd h info)
  simp only [TableOp.exec,settled,hcall]

theorem reachable_init : Reachable initFdtable := .refl

theorem Reachable.taken (run : Reachable t) (hfd : fd < maxFd) (h : t.lookup fd = none)
    (info : FdInfo) : Reachable (taken t fd info) :=
  Runs.next (i := .insertSpecFd fd info) run hfd
    (exec_insertSpecFd hfd (((reachable_inv run).free fd).mpr ⟨hfd,h⟩) info)

theorem Reachable.given (run : Reachable t) (h : t.lookup fd ≠ none) : Reachable (given t fd) :=
  Runs.next (i := .close fd) run h (exec_close (reachable_inv run) h)

/-- Standard output is given up, and the next descriptor gets its number. -/
theorem descriptors_agree_stdout : ∃ t, Reachable t ∧ 1 ∈ t.free ∧
    (1 ∈ t.free ↔ 1 ∉ t.fdTable) := by
  have run : Reachable (given initFdtable 1) := reachable_init.given (by simp [lookup_init])
  exact ⟨_,run,by simp [given],(descriptors_agree run).1 1 (by decide)⟩

/-- The copy that a fork makes agrees with the table on every descriptor. -/
def Inherits (t : FdTable) : Prop :=
  ∃ t', FdTable.fromCloneCopy t initFdtable = .ok () t' ∧ ∀ fd, t'.lookup fd = t.lookup fd

/-- The child has its parent's descriptors exactly if the parent has not touched those of the
console. -/
theorem fork_inherits_iff (run : Reachable t) :
    Inherits t ↔ ∀ fd < 3, t.lookup fd = initFdtable.lookup fd := by
  obtain ⟨_,t',hcopy,-,hlook⟩ := (fromCloneCopy_holds (reachable_inv run)).returns
  constructor
  · rintro ⟨t'',hcopy',hsame⟩ fd hfd
    rw [hcopy] at hcopy'
    cases hcopy'
    rw [← hsame fd,hlook fd,if_pos hfd]
  · intro hconsole
    refine ⟨t',hcopy,fun fd => ?_⟩
    rw [hlook fd]
    split
    · exact (hconsole fd ‹_›).symm
    · rfl

/-- Standard output goes to an open file, as a shell redirects it. -/
def redirected : FdTable := taken (given initFdtable 1) 1 ⟨.opened 0, OpenFlags.O_WRONLY⟩

theorem reachable_redirected : Reachable redirected :=
  Reachable.taken (Reachable.given reachable_init (by simp [lookup_init])) (by decide)
    (by simp [lookup_given]) _

theorem fork_inherits_opened :
    Reachable (taken initFdtable 7 ⟨.opened 0, OpenFlags.O_RDWR⟩) ∧
      Inherits (taken initFdtable 7 ⟨.opened 0, OpenFlags.O_RDWR⟩) := by
  have run : Reachable (taken initFdtable 7 ⟨.opened 0,OpenFlags.O_RDWR⟩) :=
    reachable_init.taken (by decide) (by simp [lookup_init]) _
  refine ⟨run,(fork_inherits_iff run).mpr fun fd hfd => ?_⟩
  rw [lookup_taken,if_neg (by omega)]

theorem fork_resets_stdout : Reachable redirected ∧ ¬ Inherits redirected := by
  refine ⟨reachable_redirected,?_⟩
  rintro ⟨t',hcopy,hsame⟩
  have h := ((fromCloneCopy_holds (reachable_inv reachable_redirected)).of_ok hcopy).2 1
  rw [hsame 1,if_pos (by decide),redirected,lookup_taken,if_pos rfl,lookup_init] at h
  simp at h

section Duplicates

def accessFlags (flags : OpenFlags) : OpenFlags := flags &&& ~~~OpenFlags.O_CLOEXEC

theorem accessFlags_withCloexec (old flags : OpenFlags) :
    accessFlags (withCloexec old flags) = accessFlags old := by
  unfold accessFlags withCloexec
  split
  · ext i
    simp only [BitVec.getElem_and,BitVec.getElem_or,BitVec.getElem_not]
    cases OpenFlags.O_CLOEXEC[i] <;> simp
  · rw [BitVec.and_assoc,BitVec.and_self]

theorem contains_withCloexec (old flags : OpenFlags) :
    contains (withCloexec old flags) OpenFlags.O_CLOEXEC = contains flags OpenFlags.O_CLOEXEC := by
  unfold withCloexec
  split_ifs with h
  · rw [h,contains,beq_iff_eq]
    ext i
    simp only [BitVec.getElem_and,BitVec.getElem_or]
    cases OpenFlags.O_CLOEXEC[i] <;> simp
  · have hzero : old &&& ~~~OpenFlags.O_CLOEXEC &&& OpenFlags.O_CLOEXEC = 0#32 := by
      ext i
      cases OpenFlags.O_CLOEXEC[i] <;> simp
    rw [eq_false_of_ne_true h,contains,hzero]
    decide

theorem get_some (h : t.lookup fd = some info) : FdTable.get fd t = .ok info t := by
  unfold FdTable.get
  rw [bind_ok (rfl : (MonadState.get : TableM FdTable) t = .ok t t)]
  simp only [h]
  rfl

theorem get_none (h : t.lookup fd = none) : FdTable.get fd t = .error (.errno .EBADF) t := by
  unfold FdTable.get
  rw [bind_ok (rfl : (MonadState.get : TableM FdTable) t = .ok t t)]
  simp only [h]
  rfl

variable {newFd : ℕ} {flags : OpenFlags}

theorem dup3To_free (inv : TableInv t) (hlt : newFd < maxFd) (h : t.lookup newFd = none) :
    dup3To newFd info flags t =
      .ok () (taken t newFd ⟨info.file, withCloexec info.flags flags⟩) := by
  unfold dup3To
  rw [bind_ok (insertSpecFd_free hlt ((inv.free newFd).mpr ⟨hlt,h⟩) _)]
  rfl

theorem dup3To_used (inv : TableInv t) (h : t.lookup newFd ≠ none) :
    dup3To newFd info flags t = .ok () (taken (given t newFd) newFd ⟨info.file, flags⟩) := by
  have hlt := inv.bound newFd h
  have hfree : newFd ∉ t.free := fun hmem => h ((inv.free newFd).mp hmem).2
  have hfree' : newFd ∈ (given t newFd).free := Finset.mem_insert_self _ _
  unfold dup3To
  rw [bind_ok (insertSpecFd_used hlt hfree _),if_neg (by simp),bind_ok (close_eq inv h),
    bind_ok (insertSpecFd_free hlt hfree' _)]
  rfl

theorem dup3To_limit : dup3To maxFd info flags t = .error (.panic .explicit) t := rfl

theorem dup3To_above (h : maxFd < newFd) :
    dup3To newFd info flags t = .error (.errno .EBADF) t := by
  have hspec : ∀ info, FdTable.insertSpecFd newFd info t = .error (.errno .EBADF) t :=
    fun info => by
    unfold FdTable.insertSpecFd
    rw [if_neg (by omega)]
    rfl
  exact bind_error (hspec _)

/-- What a call of `dup3` owes. -/
def Dup3Right (t : FdTable) (oldFd newFd : ℕ) (flags : OpenFlags) : Prop :=
  match dup3 oldFd newFd flags t with
  | .error (.panic _) _ => False
  | .error (.errno _) t' => t' = t ∧
    (t.lookup oldFd = none ∨ oldFd = newFd ∨ maxFd ≤ newFd ∨ fromBits flags = none)
  | .ok fd t' => fd = newFd ∧ oldFd ≠ newFd ∧ newFd < maxFd ∧ fromBits flags ≠ none ∧
    (∃ old new, t.lookup oldFd = some old ∧ t'.lookup newFd = some new ∧ new.file = old.file ∧
      accessFlags new.flags = accessFlags old.flags ∧
      contains new.flags OpenFlags.O_CLOEXEC = contains flags OpenFlags.O_CLOEXEC) ∧
    ∀ n, n ≠ newFd → t'.lookup n = t.lookup n

/-- Where it does: the flags are valid, the number is not the one at the limit, and a descriptor in
use is replaced with just the flags that the old one has. -/
def Dup3Fits (t : FdTable) (oldFd newFd : ℕ) (flags : OpenFlags) : Prop :=
  oldFd ≠ newFd → ∀ old, t.lookup oldFd = some old → fromBits flags ≠ none ∧ newFd ≠ maxFd ∧
    (t.lookup newFd ≠ none → accessFlags flags = accessFlags old.flags)

theorem dup3_eq {old : FdInfo} {oldFd : ℕ} (hne : oldFd ≠ newFd) (hold : t.lookup oldFd = some old)
    (hflags : fromBits flags ≠ none) :
    dup3 oldFd newFd flags t = (dup3To newFd old flags >>= fun _ => pure newFd) t := by
  have hbits : fromBits flags = some flags := by
    unfold fromBits at hflags ⊢
    split_ifs with h
    · rfl
    · rw [if_neg h] at hflags
      exact (hflags rfl).elim
  unfold dup3
  rw [if_neg hne,bind_ok (get_some hold)]
  simp only [hbits]

theorem dup3_cases (inv : TableInv t) (oldFd newFd : ℕ) (flags : OpenFlags) :
    (∃ e, dup3 oldFd newFd flags t = .error (.errno e) t ∧ (oldFd = newFd ∨
      t.lookup oldFd = none ∨ fromBits flags ≠ none ∧ maxFd < newFd ∧ t.lookup newFd = none)) ∨
    oldFd ≠ newFd ∧ ∃ old, t.lookup oldFd = some old ∧
      ((∃ stop, dup3 oldFd newFd flags t = .error (.panic stop) t ∧
        (fromBits flags = none ∨ newFd = maxFd)) ∨
      fromBits flags ≠ none ∧
        (newFd < maxFd ∧ t.lookup newFd = none ∧ dup3 oldFd newFd flags t =
          .ok newFd (taken t newFd ⟨old.file, withCloexec old.flags flags⟩) ∨
        t.lookup newFd ≠ none ∧ dup3 oldFd newFd flags t =
          .ok newFd (taken (given t newFd) newFd ⟨old.file, flags⟩))) := by
  by_cases hne : oldFd = newFd
  · refine .inl ⟨.EINVAL,?_,.inl hne⟩
    unfold dup3
    rw [if_pos hne]
    rfl
  cases hold : t.lookup oldFd with
  | none =>
    refine .inl ⟨.EBADF,?_,.inr (.inl rfl)⟩
    unfold dup3
    rw [if_neg hne,bind_error (get_none hold)]
  | some old =>
    by_cases hflags : fromBits flags = none
    · refine .inr ⟨hne,old,rfl,.inl ⟨.unwrapNone,?_,.inl hflags⟩⟩
      unfold dup3
      rw [if_neg hne,bind_ok (get_some hold)]
      simp only [hflags]
      rfl
    rw [dup3_eq hne hold hflags]
    rcases Nat.lt_trichotomy newFd maxFd with hlt | heq | hgt
    · refine .inr ⟨hne,old,rfl,.inr ⟨hflags,?_⟩⟩
      by_cases hnew : t.lookup newFd = none
      · exact .inl ⟨hlt,hnew,bind_ok (dup3To_free inv hlt hnew)⟩
      · exact .inr ⟨hnew,bind_ok (dup3To_used inv hnew)⟩
    · subst heq
      exact .inr ⟨hne,old,rfl,.inl ⟨.explicit,bind_error dup3To_limit,.inr rfl⟩⟩
    · refine .inl ⟨.EBADF,bind_error (dup3To_above hgt),.inr (.inr ⟨hflags,hgt,?_⟩)⟩
      by_contra h
      have := inv.bound newFd h
      omega

theorem dup3_right_iff (run : Reachable t) (oldFd newFd : ℕ) (flags : OpenFlags) :
    Dup3Right t oldFd newFd flags ↔ Dup3Fits t oldFd newFd flags := by
  have inv := reachable_inv run
  rcases dup3_cases inv oldFd newFd flags with ⟨e,hcall,hwhy⟩ | ⟨hne,old,hold,hcase⟩
  · rw [Dup3Right,hcall]
    refine ⟨fun _ hne old hold => ?_,fun _ => ⟨rfl,?_⟩⟩
    · rcases hwhy with h | h | ⟨hflags,hgt,hnone⟩
      · exact (hne h).elim
      · rw [h] at hold
        cases hold
      · exact ⟨hflags,hgt.ne',fun h => (h hnone).elim⟩
    · rcases hwhy with h | h | ⟨-,h,-⟩
      · exact .inr (.inl h)
      · exact .inl h
      · exact .inr (.inr (.inl h.le))
  have hfits : Dup3Fits t oldFd newFd flags ↔ fromBits flags ≠ none ∧ newFd ≠ maxFd ∧
      (t.lookup newFd ≠ none → accessFlags flags = accessFlags old.flags) := by
    simp [Dup3Fits,hne,hold]
  rw [hfits,Dup3Right]
  rcases hcase with ⟨stop,hcall,hwhy⟩ | ⟨hflags,⟨hlt,hnew,hcall⟩ | ⟨hnew,hcall⟩⟩
  · rw [hcall]
    exact ⟨False.elim,fun h => hwhy.elim h.1 h.2.1⟩
  · rw [hcall]
    refine ⟨fun _ => ⟨hflags,hlt.ne,fun h => (h hnew).elim⟩,fun _ =>
      ⟨rfl,hne,hlt,hflags,⟨old,_,hold,
      (lookup_taken _ _ _ _).trans (if_pos rfl),rfl,accessFlags_withCloexec _ _,
      contains_withCloexec _ _⟩,fun n hn => ?_⟩⟩
    rw [lookup_taken,if_neg hn]
  · have hlt := inv.bound newFd hnew
    rw [hcall]
    simp only [hold,lookup_taken,if_true]
    constructor
    · rintro ⟨-,-,-,-,⟨old',new,hold',hnew',-,haccess,-⟩,-⟩
      cases hold'
      cases hnew'
      exact ⟨hflags,hlt.ne,fun _ => haccess⟩
    · rintro ⟨-,-,haccess⟩
      exact ⟨trivial,hne,hlt,hflags,⟨old,_,rfl,rfl,rfl,haccess hnew,rfl⟩,fun n hn => by
        rw [if_neg hn,lookup_given,if_neg hn]⟩

/-- Standard input is duplicated to a number that is not in use. -/
theorem dup3_right_stdin : Reachable initFdtable ∧ Dup3Right initFdtable 0 9 OpenFlags.O_CLOEXEC :=
  ⟨reachable_init,(dup3_right_iff reachable_init 0 9 OpenFlags.O_CLOEXEC).mpr fun _ _ _ =>
    ⟨by decide,by decide,fun h => (h (by simp [lookup_init])).elim⟩⟩

/-- Standard output replaces standard input and can then not be written. -/
theorem dup3_loses_access : Reachable initFdtable ∧ ¬ Dup3Right initFdtable 1 0 0 := by
  refine ⟨reachable_init,fun hright => ?_⟩
  have hrun : returnsWith (dup3 1 0 0) initFdtable
      (fun _ t' => t'.lookup 0 = some ⟨.stdout,0⟩) = true := by decide +kernel
  obtain ⟨_,t',hcall,hlook⟩ := returnsWith_elim hrun
  rw [Dup3Right,hcall] at hright
  obtain ⟨-,-,-,-,⟨old,new,hold,hnew,-,haccess,-⟩,-⟩ := hright
  rw [of_decide_eq_true hlook,Option.some.injEq] at hnew
  rw [lookup_init,if_neg (by decide),if_pos rfl,Option.some.injEq] at hold
  subst hnew hold
  exact absurd haccess (by decide)

end Duplicates

section Pipes

theorem onTable_eq {α : Type} (hp : w.procs[p]? = some ti) (ht : w.tables[ti]? = some t)
    (x : TableM α) : onTable p x w =
      match x t with
      | .ok a t' => .ok a (w.withTable ti t')
      | .error e t' => .error e (w.withTable ti t') := by
  have htable : tableOf p w = .ok ti w := by
    unfold tableOf
    rw [get_bind,hp]
    rfl
  unfold onTable
  rw [bind_ok htable,get_bind,ht]
  change (match x t with | .ok a t' => _ | .error e t' => _ : Sys δ α) w = _
  cases x t <;> rfl

/-- What a call of `pipe2` owes to the process `p`, whose table `t` has the number `ti`. -/
def AllOrNothing (w : World δ) (p ti : ℕ) (t : FdTable) (flags : OpenFlags) : Prop :=
  match sysPipe2 p flags w with
  | .error (.panic _) _ => False
  | .error (.errno _) w' => w'.tables = w.tables
  | .ok (readFd, writeFd) w' => ∃ t', w'.tables = w.tables.set ti t' ∧ readFd ≠ writeFd ∧
    t.lookup readFd = none ∧ t.lookup writeFd = none ∧
    w.pipes[w.pipes.length]? = none ∧ w'.pipes = w.pipes ++ [PipeModel.makePipes] ∧
    (t'.lookup readFd).map FdInfo.file = some (.pipe w.pipes.length .Readable) ∧
    (t'.lookup writeFd).map FdInfo.file = some (.pipe w.pipes.length .Writable) ∧
    ∀ fd, fd ≠ readFd → fd ≠ writeFd → t'.lookup fd = t.lookup fd

theorem lowest_ne_none_iff (inv : TableInv t) : lowest t ≠ none ↔ t.free.Nonempty := by
  constructor
  · intro h
    obtain ⟨fd,hfd⟩ := Option.ne_none_iff_exists'.mp h
    exact ⟨fd,(lowest_some hfd).1⟩
  · rintro ⟨fd,hfd⟩ hnone
    exact lowest_none hnone fd ((inv.free fd).mp hfd).1 hfd

theorem pipe2_none (h : lowest t = none) (id : ℕ) (flags : OpenFlags) :
    pipe2 id flags t = .error (.errno .EBADF) t :=
  bind_error (insertGetFd_none h _)

theorem pipe2_one (h : lowest t = some fd) (id : ℕ) (flags : OpenFlags)
    (h' : lowest (taken t fd ⟨.pipe id .Readable, flags ||| OpenFlags.O_RDONLY⟩) = none) :
    pipe2 id flags t =
      .error (.errno .EBADF) (taken t fd ⟨.pipe id .Readable, flags ||| OpenFlags.O_RDONLY⟩) := by
  unfold pipe2
  rw [bind_ok (insertGetFd_some h _),bind_error (insertGetFd_none h' _)]

theorem pipe2_two {fd' : ℕ} (h : lowest t = some fd) (id : ℕ) (flags : OpenFlags)
    (h' : lowest (taken t fd ⟨.pipe id .Readable, flags ||| OpenFlags.O_RDONLY⟩) = some fd') :
    pipe2 id flags t = .ok (fd, fd')
      (taken (taken t fd ⟨.pipe id .Readable, flags ||| OpenFlags.O_RDONLY⟩) fd'
        ⟨.pipe id .Writable, flags ||| OpenFlags.O_WRONLY⟩) := by
  unfold pipe2
  rw [bind_ok (insertGetFd_some h _),bind_ok (insertGetFd_some h' _)]
  rfl

theorem sysPipe2_eq (hp : w.procs[p]? = some ti) (ht : w.tables[ti]? = some t) (flags : OpenFlags) :
    sysPipe2 p flags w =
      match pipe2 w.pipes.length (fromBitsTruncate flags) t with
      | .ok a t' => .ok a ({ w with pipes := w.pipes ++ [PipeModel.makePipes] }.withTable ti t')
      | .error e t' =>
        .error e ({ w with pipes := w.pipes ++ [PipeModel.makePipes] }.withTable ti t') := by
  unfold sysPipe2
  rw [get_bind]
  have hset : (set { w with pipes := w.pipes ++ [PipeModel.makePipes] } : Sys δ PUnit) w =
    .ok ⟨⟩ { w with pipes := w.pipes ++ [PipeModel.makePipes] } := rfl
  rw [bind_ok hset,onTable_eq (w := { w with pipes := w.pipes ++ [PipeModel.makePipes] }) hp ht]
  cases pipe2 w.pipes.length (fromBitsTruncate flags) t <;> rfl

theorem set_same {l : List FdTable} {i : ℕ} (h : l[i]? = some t) : l.set i t = l := by
  obtain ⟨hlt,rfl⟩ := List.getElem?_eq_some_iff.mp h
  exact List.set_getElem_self hlt

theorem pipe2_leaves_end (hp : w.procs[p]? = some ti) (ht : w.tables[ti]? = some t)
    (inv : TableInv t) (flags : OpenFlags) (h : t.free.card = 1) :
    ∃ w', sysPipe2 p flags w = .error (.errno .EBADF) w' ∧ w'.tables ≠ w.tables := by
  obtain ⟨fd,hfree⟩ := Finset.card_eq_one.mp h
  have hmem : t.free.Nonempty := by simp [hfree]
  obtain ⟨fd',hlow⟩ := Option.ne_none_iff_exists'.mp ((lowest_ne_none_iff inv).mpr hmem)
  obtain ⟨hfd',hlt,-⟩ := lowest_some hlow
  obtain rfl : fd' = fd := by simpa [hfree] using hfd'
  have hnone : lowest (taken t fd' ⟨.pipe w.pipes.length .Readable,
      fromBitsTruncate flags ||| OpenFlags.O_RDONLY⟩) =
      none := by
    by_contra hne
    obtain ⟨n,hn⟩ := (lowest_ne_none_iff (inv.taken hlt _)).mp hne
    simp [taken,hfree] at hn
  refine ⟨_,by rw [sysPipe2_eq hp ht,pipe2_one hlow _ _ hnone],fun hsame => ?_⟩
  have hti := congrArg (fun l => l[ti]?) hsame
  obtain ⟨hlen,-⟩ := List.getElem?_eq_some_iff.mp ht
  simp only [World.withTable,List.getElem?_set,hlen,if_true,ht,Option.some.injEq] at hti
  have hlook := lookup_taken t fd' fd'
    ⟨.pipe w.pipes.length .Readable,fromBitsTruncate flags ||| OpenFlags.O_RDONLY⟩
  rw [hti,if_pos rfl,((inv.free fd').mp hfd').2] at hlook
  cases hlook

theorem pipe2_all_or_nothing_iff {w : World δ} {p ti : ℕ} (hp : w.procs[p]? = some ti)
    (ht : w.tables[ti]? = some t) (run : Reachable t) (flags : OpenFlags) :
    AllOrNothing w p ti t flags ↔ t.free.card ≠ 1 := by
  have inv := reachable_inv run
  constructor
  · intro hall hone
    obtain ⟨w',hcall,hchanged⟩ := pipe2_leaves_end hp ht inv flags hone
    rw [AllOrNothing,hcall] at hall
    exact hchanged hall
  · intro hcard
    rw [AllOrNothing,sysPipe2_eq hp ht]
    cases hlow : lowest t with
    | none =>
      rw [pipe2_none hlow]
      exact set_same ht
    | some fd =>
      obtain ⟨hfd,hlt,-⟩ := lowest_some hlow
      have inv' := inv.taken hlt ⟨.pipe w.pipes.length .Readable,
        fromBitsTruncate flags ||| OpenFlags.O_RDONLY⟩
      cases hlow' : lowest (taken t fd
          ⟨.pipe w.pipes.length .Readable,fromBitsTruncate flags ||| OpenFlags.O_RDONLY⟩) with
      | none =>
        have hempty : ¬ (t.free.erase fd).Nonempty := fun h =>
          (lowest_ne_none_iff inv').mpr h hlow'
        rw [Finset.not_nonempty_iff_eq_empty] at hempty
        have hzero := congrArg Finset.card hempty
        rw [Finset.card_erase_of_mem hfd,Finset.card_empty] at hzero
        have hpos := Finset.card_pos.mpr ⟨fd,hfd⟩
        omega
      | some fd' =>
        rw [pipe2_two hlow _ _ hlow']
        obtain ⟨hfd',hlt',-⟩ := lowest_some hlow'
        obtain ⟨hne,hfd'⟩ := Finset.mem_erase.mp hfd'
        refine ⟨_,rfl,hne.symm,((inv.free fd).mp hfd).2,((inv.free fd').mp hfd').2,by simp,rfl,
          ?_,?_,fun n hn hn' => ?_⟩
        · rw [lookup_taken,if_neg hne.symm,lookup_taken,if_pos rfl]
          rfl
        · rw [lookup_taken,if_pos rfl]
          rfl
        · rw [lookup_taken,if_neg hn',lookup_taken,if_neg hn]

theorem reachable_filled : ∀ n ≤ 253, ∃ t, Reachable t ∧ t.free = Finset.Ico (3 + n) maxFd := by
  intro n
  induction n with
  | zero => exact fun _ => ⟨initFdtable,reachable_init,rfl⟩
  | succ n ih =>
    intro hn
    obtain ⟨t,run,hfree⟩ := ih (by omega)
    have hlt : 3 + n < maxFd := by
      unfold maxFd
      omega
    have hmem : 3 + n ∈ t.free := by simp [hfree,hlt]
    have hnone := (((reachable_inv run).free (3 + n)).mp hmem).2
    refine ⟨_,run.taken hlt hnone ⟨.stdin,0⟩,?_⟩
    ext m
    simp only [taken,hfree,Finset.mem_erase,Finset.mem_Ico]
    omega

/-- A process with the given table. -/
def oneProcess (t : FdTable) : World ListDisk :=
  { World.start (Vfs.cold []) with tables := [t] }

theorem pipe2_all_or_nothing_init :
    Reachable initFdtable ∧ AllOrNothing (oneProcess initFdtable) 0 0 initFdtable 0 :=
  ⟨reachable_init,
    (pipe2_all_or_nothing_iff rfl rfl reachable_init 0).mpr (by simp [initFdtable,maxFd])⟩

theorem pipe2_last_descriptor : ∃ t, Reachable t ∧ ¬ AllOrNothing (oneProcess t) 0 0 t 0 := by
  obtain ⟨t,run,hfree⟩ := reachable_filled 252 (by decide)
  refine ⟨t,run,fun hall => ?_⟩
  obtain ⟨w',hcall,hchanged⟩ := pipe2_leaves_end (w := oneProcess t) (p := 0) (t := t) rfl rfl
    (reachable_inv run) 0 (by simp [hfree,maxFd])
  rw [AllOrNothing,hcall] at hall
  exact hchanged hall

end Pipes

end DuckOs.DescriptorTables
