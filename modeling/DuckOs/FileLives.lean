import DuckOs.OpenCounts

namespace DuckOs.FileLives
open ExecutionRules PermissionFlags PathModel VfsModel VfsTrees VfsLookups VfsMounts FdTables
  DescriptorTables LinkCounts OpenCounts
open AddressModel (wordSize)
open Ext4FileModel (OpenFlags)

variable {δ : Type} {dev : Prop} {lw : Lwext4 δ} {w w' : World δ} {p : ℕ}

variable {ti fd id : ℕ} {t t' : FdTable} {α : Type} {s : Vfs δ} {path : Str} {flags : OpenFlags}
  {op : FileOp} {x : Fs δ α} {interps : List Str} {ops : List FileOp}

/-- The paths lead to entries that the tree and the cache agree on, a link is made on ext4 and
where nothing is, and the counts are machine words. -/
def InOrder (w : World δ) : FileOp → Prop
  | .openat _ path _ => PlainPath path
  | .close _ _ => ∀ ino i, w.vfs.inodes ino = some i → i.iOpenCount ≤ wordSize
  | .execve _ path interps => PlainPath path ∧ ∀ interp ∈ interps, PlainPath interp
  | .linkat oldPath newPath => w.vfs.cache.lookup newPath = none → Linkable w.vfs oldPath newPath
  | .unlinkat _ path _ => Unlinkable w.vfs path
  | _ => True

def Careful (lw : Lwext4 δ) (w : World δ) : FileOp → Prop
  | .openat p path flags => ∀ ti t, w.procs[p]? = some ti → w.tables[ti]? = some t →
    (∃ r s, sysOpenat lw path flags w.vfs = .ok r s) → t.free.Nonempty
  | .dup3 p oldFd newFd _ => ∀ ti t id flags, w.procs[p]? = some ti → w.tables[ti]? = some t →
    oldFd ≠ newFd → t.lookup oldFd ≠ none → t.lookup newFd = some ⟨.opened id, flags⟩ →
    HeldBeside w ti (· = newFd) id
  | .close p fd => ∀ ti t id flags f d, w.procs[p]? = some ti → w.tables[ti]? = some t →
    t.lookup fd = some ⟨.opened id, flags⟩ → w.files id = some f →
    w.vfs.dentries f.fDentry = some d → ¬ HeldBeside w ti (· = fd) id ∧
      (LastClose w f.fInode id → (∃ disk, lw.rmfile d.dPath w.vfs.disk = .ok () disk) ∧
        PathFree w.vfs f.fInode d.dPath)
  | .execve p path interps => ∀ ti t c s d i, w.procs[p]? = some ti → w.tables[ti]? = some t →
    pathToDentry lw path w.vfs = .ok (some c) s → s.dentries c = some d →
    s.inodes d.dInode = some i → i.iMode = .Regular →
    (∀ fd id flags, t.lookup fd = some ⟨.opened id, flags⟩ →
      contains flags OpenFlags.O_CLOEXEC → HeldBeside w ti (· ∈ FdTable.execFds t) id) ∧
    NoInterp lw s interps
  | _ => True

/-- The property after each step that is completed. -/
def CountedAlong (lw : Lwext4 δ) : World δ → List FileOp → Prop
  | _, [] => True
  | w, op :: ops => ∀ w', op.exec lw () w = .ok () w' → LifeCounted w w' ∧ CountedAlong lw w' ops

/-- Every step that is completed meets the condition in the state before it. -/
def Along (lw : Lwext4 δ) (P : World δ → FileOp → Prop) : World δ → List FileOp → Prop
  | _, [] => True
  | w, op :: ops => ∀ w', op.exec lw () w = .ok () w' → P w op ∧ Along lw P w' ops

def StepIff (dev : Prop) (lw : Lwext4 δ) (op : FileOp) (w w' : World δ) : Prop :=
  (LifeCounted w w' ↔ Careful lw w op) ∧ (LifeCounted w w' → Sound dev w')

/-- The step is right wherever the call leads the system. -/
def Steps (dev : Prop) (lw : Lwext4 δ) (op : FileOp) (x : Sys δ α) (w : World δ) : Prop :=
  Holds x w (fun _ => StepIff dev lw op w) (Failed (StepIff dev lw op w))

theorem StepIff.kept (hlife : LifeCounted w w') (hsound : Sound dev w') (hc : Careful lw w op) :
    StepIff dev lw op w w' :=
  ⟨⟨fun _ => hc,fun _ => hlife⟩,fun _ => hsound⟩

theorem StepIff.lost (hnot : ¬ LifeCounted w w') (hc : ¬ Careful lw w op) :
    StepIff dev lw op w w' :=
  ⟨⟨fun hlife => (hnot hlife).elim,fun h => (hc h).elim⟩,fun hlife => (hnot hlife).elim⟩

theorem calm_kept (h : Sound dev w) (hcalm : Calm dev (topOf w.vfs) w.vfs s)
    (hc : Careful lw w op) : StepIff dev lw op w { w with vfs := s } :=
  .kept (calm_step h hcalm).1 (calm_step h hcalm).2 hc

theorem table_kept (h : Sound dev w) (inv : TableInv t')
    (hrefs : refs (w.withTable ti t') = refs w) (hc : Careful lw w op) :
    StepIff dev lw op w (w.withTable ti t') := by
  obtain ⟨hiff,hsound⟩ := table_step h inv hrefs.le
  exact ⟨⟨fun _ => hc,fun _ => hiff.mpr hrefs⟩,hsound⟩

theorem same_kept (h : Sound dev w) (ht : w.tables[ti]? = some t) (hc : Careful lw w op) :
    StepIff dev lw op w (w.withTable ti t) :=
  table_kept h (h.tables t (List.mem_of_getElem? ht)) (by rw [withTable_same ht]) hc

theorem refs_given (ht : w.tables[ti]? = some t) (id : ℕ) :
    id ∈ refs (w.withTable ti (given t fd)) ↔ HeldBeside w ti (· = fd) id :=
  refs_dropped ht (lookup_given t fd)

theorem dup_step (h : Sound dev w) (oldFd : ℕ) :
    Steps dev lw (.dup p oldFd) (sysDup p oldFd) w := by
  refine onTable_holds fun ti t _ ht => ?_
  have inv := h.tables t (List.mem_of_getElem? ht)
  cases hold : t.lookup oldFd with
  | none => exact holds_error (bind_error (get_none hold)) fun _ _ => same_kept h ht trivial
  | some info =>
    refine holds_bind_ok (get_some hold) ?_
    cases hfree : lowest t with
    | none => exact holds_error (insertGetFd_none hfree _) fun _ _ => same_kept h ht trivial
    | some fd =>
      obtain ⟨hmem,hlt,-⟩ := lowest_some hfree
      exact holds_ok (insertGetFd_some hfree _) (table_kept h (inv.taken hlt _)
        (refs_taken_same ht ((inv.free fd).mp hmem).2 hold rfl) trivial)

theorem dup3_step (h : Sound dev w) (oldFd newFd : ℕ) (flags : OpenFlags) :
    Steps dev lw (.dup3 p oldFd newFd flags) (sysDup3 p oldFd newFd flags) w := by
  refine onTable_holds fun ti t hp ht => ?_
  have inv := h.tables t (List.mem_of_getElem? ht)
  have hcareful : Careful lw w (.dup3 p oldFd newFd flags) ↔ ∀ id flags', oldFd ≠ newFd →
      t.lookup oldFd ≠ none → t.lookup newFd = some ⟨.opened id,flags'⟩ →
      HeldBeside w ti (· = newFd) id := by
    constructor
    · intro hc id flags'
      exact hc ti t id flags' hp ht
    · intro hc tj t₁ id flags' hp' ht'
      cases hp.symm.trans hp'
      cases ht.symm.trans ht'
      exact hc id flags'
  rcases dup3_cases inv oldFd newFd flags with ⟨e,hfail,hwhy⟩ | ⟨hne,old,hold,hcase⟩
  · refine holds_error hfail fun _ _ => same_kept h ht
      (hcareful.mpr fun id flags' hne hold hnew => ?_)
    rcases hwhy with heq | hnone | ⟨-,-,hnone⟩
    · exact (hne heq).elim
    · exact (hold hnone).elim
    · rw [hnone] at hnew
      cases hnew
  rcases hcase with ⟨stop,hstop,-⟩ | ⟨-,⟨hlt,hnew,hcall⟩ | ⟨hnew,hcall⟩⟩
  · exact holds_error hstop fun _ => nofun
  · refine holds_ok hcall (table_kept h (inv.taken hlt _) (refs_taken_same ht hnew hold rfl)
      (hcareful.mpr fun _ _ _ _ hlook => ?_))
    rw [hnew] at hlook
    cases hlook
  · refine holds_ok hcall ?_
    have hlt := inv.bound newFd hnew
    have hgiven := tables_withTable ht (given t newFd) ti
    rw [if_pos rfl] at hgiven
    have htwice : w.withTable ti (taken (given t newFd) newFd ⟨old.file,flags⟩) =
        (w.withTable ti (given t newFd)).withTable ti
          (taken (given t newFd) newFd ⟨old.file,flags⟩) := by
      simp [World.withTable]
    have hsame : refs (w.withTable ti (taken (given t newFd) newFd ⟨old.file,flags⟩)) =
        refs (w.withTable ti (given t newFd)) := by
      have hfrom : (given t newFd).lookup oldFd = some old := by rw [lookup_given,if_neg hne,hold]
      rw [htwice]
      exact refs_taken_same hgiven (by rw [lookup_given,if_pos rfl]) hfrom rfl
    have hrefs : ∀ id, id ∈ refs (w.withTable ti (taken (given t newFd) newFd
        ⟨old.file,flags⟩)) ↔ HeldBeside w ti (· = newFd) id := fun id => by
      rw [hsame]
      exact refs_given ht id
    obtain ⟨hsub,heq⟩ := refs_eq_iff ht hrefs
    obtain ⟨hiff,hsound⟩ := table_step h ((inv.given hlt).taken hlt _) hsub
    refine ⟨?_,hsound⟩
    rw [hiff,heq,hcareful]
    constructor
    · exact fun hall id flags' _ _ hlook => hall newFd id flags' rfl hlook
    · rintro hall n id flags' rfl hlook
      exact hall id flags' hne (by simp [hold]) hlook

theorem refs_copied (ht : w.tables[ti]? = some t)
    (hlook : ∀ fd, t'.lookup fd = if fd < 3 then FdTable.initFdtable.lookup fd else t.lookup fd)
    (procs : List ℕ) : refs { w with tables := w.tables ++ [t'], procs := procs } = refs w := by
  ext id
  constructor
  · rintro ⟨t₁,ht₁,fd,flags,hfd⟩
    rcases List.mem_append.mp ht₁ with hold | hnew
    · exact ⟨t₁,hold,fd,flags,hfd⟩
    · rw [List.mem_singleton.mp hnew,hlook] at hfd
      split at hfd
      · rw [lookup_init] at hfd
        split_ifs at hfd
        all_goals cases hfd
      · exact ⟨t,List.mem_of_getElem? ht,fd,flags,hfd⟩
  · rintro ⟨t₁,ht₁,hid⟩
    exact ⟨t₁,List.mem_append_left _ ht₁,hid⟩

theorem clone_step (h : Sound dev w) (shareFiles : Bool) :
    Steps dev lw (.clone p shareFiles) (sysClone p shareFiles) w := by
  have hfinish : ∀ tables procs, (∀ t ∈ tables, TableInv t) →
      refs { w with tables := tables, procs := procs } = refs w →
      StepIff dev lw (.clone p shareFiles) w { w with tables := tables, procs := procs } := by
    intro tables procs htables hrefs
    have hiff : LifeCounted w { w with tables := tables, procs := procs } ↔ _ :=
      calm_counted_iff h (calm_refl h) rfl hrefs.le
    exact .kept (hiff.mpr hrefs) (calm_sound h (calm_refl h) rfl rfl htables hrefs) trivial
  refine tableOf_bind fun ti hp => holds_get ?_
  split_ifs
  · exact hfinish w.tables _ h.tables rfl
  · refine orStop_bind fun t ht => ?_
    have inv := h.tables t (List.mem_of_getElem? ht)
    obtain ⟨_,t',hcopy,inv',hlook⟩ := (fromCloneCopy_holds inv).returns
    rw [hcopy]
    refine hfinish _ _ (fun t₁ ht₁ => ?_) (refs_copied ht hlook _)
    rcases List.mem_append.mp ht₁ with hold | hnew
    · exact h.tables t₁ hold
    · exact List.mem_singleton.mp hnew ▸ inv'

theorem onVfs_ok {a : α} (h : x w.vfs = .ok a s) : onVfs x w = .ok a { w with vfs := s } := by
  unfold onVfs
  rw [h]

theorem onVfs_holds {Q : α → World δ → Prop} {E : Fault → World δ → Prop}
    (h : Holds x w.vfs (fun a s => Q a { w with vfs := s }) fun e s => E e { w with vfs := s }) :
    Holds (onVfs x) w Q E := by
  unfold Holds onVfs at *
  cases hx : x w.vfs <;> rwa [hx] at h

theorem linkat_step (h : Sound dev w) {oldPath newPath : Str}
    (hop : InOrder w (.linkat oldPath newPath)) :
    Steps dev lw (.linkat oldPath newPath) (onVfs (sysLinkat lw oldPath newPath)) w :=
  onVfs_holds ((sysLinkat_calm lw h.tree h.links hop).mono
    (fun _ _ hcalm => calm_kept h hcalm trivial)
    fun _ _ hcalm e he => calm_kept h (hcalm e he) trivial)

theorem unlinkat_step (h : Sound dev w) {cwd : Str} {removeDir : Bool}
    (hop : InOrder w (.unlinkat cwd path removeDir)) :
    Steps dev lw (.unlinkat cwd path removeDir) (onVfs (sysUnlinkat lw cwd path removeDir)) w := by
  have hkept : ∀ s, Removed dev (topOf w.vfs) w.vfs s →
      StepIff dev lw (.unlinkat cwd path removeDir) w { w with vfs := s } := fun s hrem =>
    .kept (removed_counted h hrem).1 (removed_counted h hrem).2 trivial
  exact onVfs_holds ((sysUnlinkat_removes lw h.tree h.links hop cwd removeDir).mono
    (fun _ s hrem => hkept s hrem) fun _ s hrem e he => hkept s (hrem e he))

/-- The file is made. -/
def opened (w : World δ) (s : Vfs δ) (file : FileMeta) : World δ :=
  { w with
    vfs := s
    files := Function.update w.files w.nextFile (some file)
    nextFile := w.nextFile + 1 }

theorem openat_step (h : Sound dev w) (hop : InOrder w (.openat p path flags)) :
    Steps dev lw (.openat p path flags) (sysOpen lw p path flags) w := by
  have hopens := sysOpenat_opens lw h.tree h.links hop flags
  refine (onVfs_holds (Q := fun r w₁ => ∃ s, w₁ = { w with vfs := s } ∧
    sysOpenat lw path flags w.vfs = .ok r s) ?_).bind ?_
  · cases hvfs : sysOpenat lw path flags w.vfs with
    | ok r s => exact holds_ok hvfs ⟨s,rfl,rfl⟩
    | error e s =>
      refine holds_error hvfs fun err he => calm_kept h (hopens.of_error hvfs err he).calm ?_
      rintro ti t _ _ ⟨r,s',hs'⟩
      cases hvfs.symm.trans hs'
  rintro r _ ⟨s,rfl,hvfs⟩
  have hopened := hopens.of_ok hvfs
  obtain ⟨d,hd⟩ : ∃ d, s.dentries r.1 = some d := by
    obtain ⟨u,d,i,-,hd,-,rfl⟩ := hopened
    exact ⟨d,hd⟩
  refine holds_bind_ok (onVfs_ok (w := { w with vfs := s }) (dentry_eq hd)) (holds_bind_ok
    (t := opened w s ⟨r.1,d.dInode,0⟩) rfl (onTable_holds fun ti t hp ht => ?_))
  have inv := h.tables t (List.mem_of_getElem? ht)
  cases hfree : lowest t with
  | none =>
    refine holds_error (insertGetFd_none hfree _) fun _ _ => ?_
    have hrefs : refs ((opened w s ⟨r.1,d.dInode,0⟩).withTable ti t) = refs w := by
      rw [withTable_same ht]
      rfl
    have hleaked : ¬ LifeCounted w ((opened w s ⟨r.1,d.dInode,0⟩).withTable ti t) := by
      refine leaked_not_counted h hopened fun ino id hid => ?_
      obtain ⟨hmem,hfile⟩ := hid
      rw [hrefs] at hmem
      have hne : id ≠ w.nextFile := fun heq => h.next_notMem (heq ▸ hmem)
      have hsame : ((opened w s ⟨r.1,d.dInode,0⟩).withTable ti t).files id = w.files id :=
        Function.update_of_ne hne _ _
      rw [hsame] at hfile
      exact ⟨hmem,hfile⟩
    refine .lost hleaked fun hc => ?_
    have hne := hc ti t hp ht ⟨r,s,hvfs⟩
    exact (lowest_ne_none_iff inv).mpr hne hfree
  | some fd =>
    refine holds_ok (insertGetFd_some hfree _) ?_
    obtain ⟨hmem,hlt,-⟩ := lowest_some hfree
    have hrefs : refs ((opened w s ⟨r.1,d.dInode,0⟩).withTable ti
        (taken t fd ⟨.opened w.nextFile,r.2⟩)) = insert w.nextFile (refs w) := by
      rw [refs_taken ht ((inv.free fd).mp hmem).2]
      ext id
      simp only [Set.mem_union,Set.mem_ofPred_eq,FileRef.opened.injEq,Set.mem_insert_iff,
        or_comm,eq_comm]
      rfl
    have htables : ∀ t₁ ∈ ((opened w s ⟨r.1,d.dInode,0⟩).withTable ti
        (taken t fd ⟨.opened w.nextFile,r.2⟩)).tables, TableInv t₁ :=
      tableInv_withTable h.tables (inv.taken hlt _)
    obtain ⟨hlife,hsound⟩ := opened_counted h hopened hd rfl rfl htables hrefs
    refine .kept hlife hsound fun tj t₁ hp' ht' _ => ?_
    cases hp.symm.trans hp'
    cases ht.symm.trans ht'
    exact ⟨fd,hmem⟩

theorem onTable_close (hp : w.procs[p]? = some ti) (ht : w.tables[ti]? = some t)
    (inv : TableInv t) (hfd : t.lookup fd ≠ none) :
    onTable p (FdTable.close fd) w = .ok () (w.withTable ti (given t fd)) := by
  rw [onTable_eq hp ht,close_eq inv hfd]

theorem close_opened_step (h : Sound dev w) (hop : InOrder w (.close p fd))
    (hp : w.procs[p]? = some ti) (ht : w.tables[ti]? = some t)
    (hfd : t.lookup fd = some ⟨.opened id, flags⟩) :
    Steps dev lw (.close p fd)
      (closeRef lw (.opened id) >>= fun _ => onTable p (FdTable.close fd)) w := by
  have inv := h.tables t (List.mem_of_getElem? ht)
  have href : id ∈ refs w := mem_refs.mpr ⟨ti,t,ht,fd,flags,hfd⟩
  obtain ⟨f,hf⟩ := h.known id href
  have hid : id ∈ heldOf w f.fInode := ⟨href,by rw [hf,Option.map_some]⟩
  obtain ⟨-,kind,hentry⟩ := h.files id f hf
  obtain ⟨d,hd,heq⟩ := exists_of_entryOf hentry
  obtain ⟨i,hi⟩ := h.inode_of_held hid
  have hcareful : Careful lw w (.close p fd) ↔ ¬ HeldBeside w ti (· = fd) id ∧
      (LastClose w f.fInode id → (∃ disk, lw.rmfile d.dPath w.vfs.disk = .ok () disk) ∧
        PathFree w.vfs f.fInode d.dPath) := by
    constructor
    · intro hc
      exact hc ti t id flags f d hp ht hfd hf hd
    · intro hc tj t₁ id₁ flags₁ f₁ d₁ hp' ht' hfd' hf' hd'
      cases hp.symm.trans hp'
      cases ht.symm.trans ht'
      cases hfd.symm.trans hfd'
      cases hf.symm.trans hf'
      cases hd.symm.trans hd'
      exact hc
  have hclose := fileClose_closes lw h hid hd (Prod.mk.inj heq).2.symm hi (hop _ i hi)
  refine Holds.bind (R := fun _ w₁ => ∃ s, w₁ = { w with vfs := s } ∧ Closing w id f d i s ∧
    (LastClose w f.fInode id → ∃ disk, lw.rmfile d.dPath w.vfs.disk = .ok () disk)) ?_ ?_
  · refine holds_get (orStop_bind fun f' hf' => ?_)
    cases hf.symm.trans hf'
    refine onVfs_holds (hclose.mono (fun _ s hs => ⟨s,rfl,hs⟩) fun e s hs err he => ?_)
    obtain ⟨hclosing,hlast,hfail⟩ := hs err he
    have hnot : ¬ LifeCounted w { w with vfs := s } :=
      kept_not_counted h hid hi hclosing rfl rfl
    refine .lost hnot fun hc => ?_
    obtain ⟨disk,hdisk⟩ := ((hcareful.mp hc).2 hlast).1
    exact hfail disk hdisk
  rintro _ _ ⟨s,rfl,hclosing,hdisk⟩
  have hclosed : Closing w id f d i ({ w with vfs := s }.withTable ti (given t fd)).vfs := hclosing
  refine holds_ok (onTable_close (w := { w with vfs := s }) hp ht inv (by simp [hfd])) ?_
  have hrefs : ∀ x, x ∈ refs ({ w with vfs := s }.withTable ti (given t fd)) ↔
      HeldBeside w ti (· = fd) x := fun x => refs_given (w := { w with vfs := s }) ht x
  by_cases hb : HeldBeside w ti (· = fd) id
  · -- another descriptor refers to the file
    have hsame : refs ({ w with vfs := s }.withTable ti (given t fd)) = refs w := by
      refine (refs_eq_iff ht hrefs).2.mpr fun n x flags' hn hlook => ?_
      subst hn
      cases hfd.symm.trans hlook
      exact hb
    have hnot := kept_not_counted h hid hi hclosed rfl hsame
    exact .lost hnot fun hc => (hcareful.mp hc).1 hb
  · have hless : refs ({ w with vfs := s }.withTable ti (given t fd)) = refs w \ {id} := by
      ext x
      rw [hrefs,Set.mem_sdiff,Set.mem_singleton_iff]
      constructor
      · intro hx'
        exact ⟨heldBeside_mem hx',fun hxid => hb (hxid ▸ hx')⟩
      · rintro ⟨hx',hne⟩
        refine heldBeside_of_mem ht hx' fun n flags' hn hlook => ?_
        subst hn
        cases hfd.symm.trans hlook
        exact hne rfl
    have htables : ∀ t₁ ∈ ({ w with vfs := s }.withTable ti (given t fd)).tables, TableInv t₁ :=
      tableInv_withTable h.tables (inv.given (inv.bound fd (by simp [hfd])))
    obtain ⟨hiff,hsound⟩ := closed_counted_iff h hid hi hclosed rfl rfl htables hless
    refine ⟨?_,fun _ => hsound⟩
    rw [hiff,hcareful]
    exact ⟨fun hpath => ⟨hb,fun hl => ⟨hdisk hl,hpath hl⟩⟩,fun hc hl => (hc.2 hl).2⟩

theorem close_step (h : Sound dev w) (hop : InOrder w (.close p fd)) :
    Steps dev lw (.close p fd) (sysClose lw p fd) w := by
  have hvacuous : ∀ ti t, w.procs[p]? = some ti → w.tables[ti]? = some t →
      (∀ id flags, t.lookup fd ≠ some ⟨.opened id,flags⟩) → Careful lw w (.close p fd) := by
    intro ti t hp ht hnone tj t₁ id flags f d hp' ht' hlook
    cases hp.symm.trans hp'
    cases ht.symm.trans ht'
    exact (hnone id flags hlook).elim
  refine (onTable_holds (Q := fun info w₁ => w₁ = w ∧ ∃ ti t, w.procs[p]? = some ti ∧
    w.tables[ti]? = some t ∧ t.lookup fd = some info) fun ti t hp ht => ?_).bind ?_
  · cases hfd : t.lookup fd with
    | none =>
      exact holds_error (get_none hfd) fun _ _ => same_kept h ht
        (hvacuous ti t hp ht (by simp [hfd]))
    | some info => exact holds_ok (get_some hfd) ⟨withTable_same ht,ti,t,hp,ht,hfd⟩
  rintro ⟨file,flags⟩ _ ⟨rfl,ti,t,hp,ht,hfd⟩
  have inv := h.tables t (List.mem_of_getElem? ht)
  cases file with
  | opened id => exact close_opened_step h hop hp ht hfd
  | pipe id status =>
    refine holds_bind_ok rfl (holds_ok (onTable_close hp ht inv (by simp [hfd])) ?_)
    refine table_kept h (inv.given (inv.bound fd (by simp [hfd])))
      ((refs_eq_iff ht (refs_given ht)).2.mpr fun n x flags' hn hlook => ?_)
      (hvacuous ti t hp ht (by simp [hfd]))
    subst hn
    cases hfd.symm.trans hlook
  | _ => exact fun _ => nofun

theorem execve_step (h : Sound dev w) (hop : InOrder w (.execve p path interps)) :
    Steps dev lw (.execve p path interps) (sysExecve lw p path interps) w := by
  have hlook := pathToDentry_looks lw h.tree h.links fun _ => hop.1
  unfold sysExecve
  split_ifs
  · exact fun _ => nofun
  refine (onVfs_holds (Q := fun r w₁ => ∃ s, w₁ = { w with vfs := s } ∧
    pathToDentry lw path w.vfs = .ok r s) ?_).bind ?_
  · cases hpath : pathToDentry lw path w.vfs with
    | ok r s => exact holds_ok hpath ⟨s,rfl,rfl⟩
    | error e s => exact holds_error hpath fun err he => (hlook.of_error hpath err he).elim
  rintro r _ ⟨s,rfl,hpath⟩
  obtain ⟨hf,hs⟩ := hlook.of_ok hpath
  have hkept : (∀ c d i, r = some c → s.dentries c = some d → s.inodes d.dInode = some i →
      i.iMode ≠ .Regular) → StepIff dev lw (.execve p path interps) w { w with vfs := s } := by
    refine fun hmode => calm_kept h hs.calm fun ti t c s₁ d i _ _ hc hd hi hreg => ?_
    cases hpath.symm.trans hc
    exact (hmode c d i rfl hd hi hreg).elim
  cases r with
  | none => exact fun _ _ => hkept nofun
  | some c =>
    obtain ⟨d,hd,-⟩ := hf.entry c rfl
    obtain ⟨i,hi⟩ : ∃ i, s.inodes d.dInode = some i := hs.links.inodes c _ (entryOf_eq hd)
    refine holds_bind_ok rfl (holds_bind_ok (onVfs_ok (w := { w with vfs := s }) (dentry_eq hd))
      (holds_bind_ok (onVfs_ok (w := { w with vfs := s }) (inodeMeta_eq hi)) ?_))
    split_ifs with hmode
    · refine fun _ _ => hkept ?_
      rintro c' d' i' ⟨⟩ hd' hi'
      cases hd.symm.trans hd'
      cases hi.symm.trans hi'
      exact hmode
    refine (onTable_holds (Q := fun _ w₁ => ∃ ti t t', w.procs[p]? = some ti ∧
      w.tables[ti]? = some t ∧ w₁ = { w with vfs := s }.withTable ti t' ∧ TableInv t' ∧
      ∀ fd, t'.lookup fd = if fd ∈ FdTable.execFds t then none else t.lookup fd)
      fun ti t hp ht => ?_).bind ?_
    · exact (closeExec_holds (h.tables t (List.mem_of_getElem? ht))).mono
        (fun _ t' ht' => ⟨ti,t,t',hp,ht,rfl,ht'⟩) fun _ _ he => he.elim
    rintro _ _ ⟨ti,t,t',hp,ht,rfl,inv',hexec⟩
    refine onVfs_holds ((loadDlInterp_opens lw c interps hs hop.2).mono (fun _ s' hinterp => ?_)
      fun _ _ hstop err he => (hstop err he).elim)
    change StepIff dev lw _ w ({ w with vfs := s' }.withTable ti t')
    have hcareful : Careful lw w (.execve p path interps) ↔
        (∀ fd id flags, t.lookup fd = some ⟨.opened id,flags⟩ →
          contains flags OpenFlags.O_CLOEXEC → HeldBeside w ti (· ∈ FdTable.execFds t) id) ∧
        NoInterp lw s interps := by
      constructor
      · intro hc
        exact hc ti t c s d i hp ht hpath hd hi (not_not.mp hmode)
      · intro hc tj t₁ c₁ s₁ d₁ i₁ hp' ht' hpath' _ _ _
        cases hp.symm.trans hp'
        cases ht.symm.trans ht'
        cases hpath.symm.trans hpath'
        exact hc
    have hrefs : ∀ id, id ∈ refs ({ w with vfs := s' }.withTable ti t') ↔
        HeldBeside w ti (· ∈ FdTable.execFds t) id := fun id =>
      refs_dropped (w := { w with vfs := s' }) ht hexec
    obtain ⟨hsub,hsame⟩ := refs_eq_iff ht hrefs
    have hmarked : (∀ n id flags, n ∈ FdTable.execFds t → t.lookup n = some ⟨.opened id,flags⟩ →
          HeldBeside w ti (· ∈ FdTable.execFds t) id) ↔
        ∀ fd id flags, t.lookup fd = some ⟨.opened id,flags⟩ →
          contains flags OpenFlags.O_CLOEXEC →
          HeldBeside w ti (· ∈ FdTable.execFds t) id := by
      refine forall₃_congr fun n id flags => ?_
      rw [(execFds_spec t).2]
      constructor
      · exact fun hall hn hflag => hall ⟨_,hn,hflag⟩ hn
      · rintro hall ⟨info,hinfo,hflag⟩ hn
        cases hinfo.symm.trans hn
        exact hall hn hflag
    rcases hinterp with ⟨hnone,hs'⟩ | ⟨hsome,c',hopened⟩
    · have hcalm : Calm dev (topOf w.vfs) w.vfs ({ w with vfs := s' }.withTable ti t').vfs :=
        hs'.calm
      have hiff := calm_counted_iff h hcalm rfl hsub
      refine ⟨?_,fun hlife => calm_sound h hcalm rfl rfl (tableInv_withTable h.tables inv')
        (hiff.mp hlife)⟩
      rw [hiff,hsame,hmarked,hcareful]
      exact ⟨fun hall => ⟨hall,hnone⟩,fun hc => hc.1⟩
    · have hopened' : Opened dev (topOf w.vfs) w.vfs c'
        ({ w with vfs := s' }.withTable ti t').vfs := hopened
      have hnot := leaked_not_counted h hopened' fun ino id hid => ⟨hsub hid.1,hid.2⟩
      exact .lost hnot fun hc => hsome (hcareful.mp hc).2

theorem step_iff (h : Sound dev w) (op : FileOp) (hop : InOrder w op)
    (hstep : op.exec lw () w = .ok () w') : StepIff dev lw op w w' := by
  have hholds : Holds (op.exec lw ()) w (fun _ => StepIff dev lw op w) fun _ _ => True := by
    cases op with
    | openat p path flags => exact settled_holds (openat_step h hop)
    | dup p oldFd => exact settled_holds (dup_step h oldFd)
    | dup3 p oldFd newFd flags => exact settled_holds (dup3_step h oldFd newFd flags)
    | clone p shareFiles => exact settled_holds (clone_step h shareFiles)
    | close p fd => exact settled_holds (close_step h hop)
    | execve p path interps => exact settled_holds (execve_step h hop)
    | linkat oldPath newPath => exact settled_holds (linkat_step h hop)
    | unlinkat cwd path removeDir => exact settled_holds (unlinkat_step h hop)
  exact hholds.of_ok hstep

/-- A tree with its links counted, one process, and nothing open. -/
structure Started (dev : Prop) (s : Vfs δ) : Prop where
  tree : Stands dev s
  links : LinkInv s
  closed : ∀ ino i, s.inodes ino = some i → i.iOpenCount = 0

theorem Started.sound (h : Started dev s) : Sound dev (World.start s) := by
  have hrefs : refs (World.start s) = ∅ := by
    ext id
    simp only [Set.mem_empty_iff_false,iff_false]
    rintro ⟨t,ht,fd,flags,hfd⟩
    rw [List.mem_singleton.mp ht,lookup_init] at hfd
    split_ifs at hfd
    all_goals cases hfd
  refine ⟨h.tree,h.links,fun t ht => ?_,fun id f hf => ?_,fun id hid => ?_,fun ino i hi => ?_⟩
  · exact List.mem_singleton.mp ht ▸ init_inv
  · cases hf
  · rw [hrefs] at hid
    cases hid
  · rw [h.closed ino i hi]
    have hempty : heldOf (World.start s) ino = ∅ := by
      unfold heldOf
      rw [hrefs]
      simp
    rw [hempty,Set.ncard_empty]

theorem counted_iff_of_sound (ops : List FileOp) (h : Sound dev w)
    (hops : Along lw InOrder w ops) : CountedAlong lw w ops ↔ Along lw (Careful lw) w ops := by
  induction ops generalizing w with
  | nil => exact Iff.rfl
  | cons op ops ih =>
    refine forall₂_congr fun w' hstep => ?_
    obtain ⟨hop,hrest⟩ := hops w' hstep
    obtain ⟨hiff,hsound⟩ := step_iff h op hop hstep
    constructor
    · rintro ⟨hlife,hcounted⟩
      exact ⟨hiff.mp hlife,(ih (hsound hlife) hrest).mp hcounted⟩
    · rintro ⟨hcareful,hrun⟩
      have hlife := hiff.mpr hcareful
      exact ⟨hlife,(ih (hsound hlife) hrest).mpr hrun⟩

theorem started_kept {top : TreeTop} : Kept dev top fun t : Vfs δ =>
    LinkInv t ∧ ∀ ino i, t.inodes ino = some i → i.iOpenCount = 0 := by
  have hkept : ∀ s : Vfs δ, Kept dev top fun t => LinkInv t ∧ Extends s t := extends_kept
  refine ⟨fun {s} disk h => ⟨((hkept s).disk disk ⟨h.1,Extends.refl s⟩).1,h.2⟩,
    fun {s} path c h => ⟨((hkept s).learn path c ⟨h.1,Extends.refl s⟩).1,h.2⟩,?_⟩
  intro s q dq l name mode inv hat hq hk hname hplain hfree h
  obtain ⟨hlinks,hext⟩ := (hkept s).entry mode inv hat hq hk hname hplain hfree
    ⟨h.1,Extends.refl s⟩
  refine ⟨hlinks,fun ino i hi => ?_⟩
  rcases hext.added ino i hi with hold | ⟨-,⟨_,rfl⟩,-⟩
  · exact h.2 ino i hold
  · rfl

theorem mounted_started (hlist : ListsNames lw) {depth : ℕ} {disk : δ}
    (h : mount lw depth ['/'] true .EXT4 (Vfs.cold disk) = .ok () s) : Started dev s := by
  have hroot : ∀ disk' : δ,
      LinkInv (addEntry (withInode { Vfs.cold disk with disk := disk' } .Directory) (diskRoot 0)) ∧
      ∀ ino i, (addEntry (withInode { Vfs.cold disk with disk := disk' } .Directory)
        (diskRoot 0)).inodes ino = some i → i.iOpenCount = 0 := by
    intro disk'
    have hinode : ∀ ino i, (addEntry (withInode { Vfs.cold disk with disk := disk' } .Directory)
        (diskRoot 0)).inodes ino = some i → ino = 0 ∧ i = ⟨.Directory,1,0⟩ := by
      intro ino i hi
      exact (NamedTrees.update_cases hi).resolve_right fun hold => nomatch hold.2
    have hentry : ∀ c e, entryOf (addEntry (withInode { Vfs.cold disk with disk := disk' }
        .Directory) (diskRoot 0)) c = some e → c = 0 ∧ e = (.ext4, 0) := by
      intro c e hc
      obtain ⟨d,hd,rfl⟩ := exists_of_entryOf hc
      obtain ⟨rfl,rfl⟩ := (NamedTrees.update_cases hd).resolve_right fun hold => nomatch hold.2
      exact ⟨rfl,rfl⟩
    refine ⟨⟨fun c e hc => ?_,fun ino i hi => ?_,fun c c' kind kind' ino hc hc' => ?_,
      fun q a c e e' i hedge hq hc hi hreg => ?_,fun ino i hi hreg => ?_⟩,fun ino i hi => ?_⟩
    · obtain ⟨-,rfl⟩ := hentry c e hc
      exact ⟨_,rfl⟩
    · obtain ⟨rfl,-⟩ := hinode ino i hi
      exact Nat.zero_lt_one
    · rw [(Prod.mk.inj (hentry c _ hc).2).1,(Prod.mk.inj (hentry c' _ hc').2).1]
    · obtain ⟨-,rfl⟩ := hinode _ i hi
      cases hreg
    · obtain ⟨-,rfl⟩ := hinode ino i hi
      cases hreg
    · rw [(hinode ino i hi).2]
  obtain ⟨inv,hlinks,hclosed⟩ := (mountExt4_keeps lw (fun _ => started_kept) (cold_stands disk)
    rfl rfl hlist depth hroot fun _ _ h => ⟨⟨h.1.inodes,h.1.fresh,h.1.kinds,h.1.placed,
      h.1.counted⟩,h.2⟩).of_ok h
  exact ⟨inv,hlinks,hclosed⟩

theorem along_and {P Q : World δ → FileOp → Prop} :
    Along lw (fun w op => P w op ∧ Q w op) w ops → Along lw P w ops ∧ Along lw Q w ops := by
  induction ops generalizing w with
  | nil => exact fun _ => ⟨trivial,trivial⟩
  | cons op ops ih =>
    intro h
    exact ⟨fun w' hstep => ⟨(h w' hstep).1.1,(ih (h w' hstep).2).1⟩,
      fun w' hstep => ⟨(h w' hstep).1.2,(ih (h w' hstep).2).2⟩⟩

def countsFit (s : Vfs δ) : Bool :=
  (List.range s.nextInode).all fun ino =>
    (s.inodes ino).all fun i => i.iLinkCount ≤ wordSize && i.iOpenCount ≤ wordSize

theorem counts_of_fit (h : LinkInv s) (hfit : countsFit s) {ino : ℕ} {i : InodeMeta}
    (hi : s.inodes ino = some i) : i.iLinkCount ≤ wordSize ∧ i.iOpenCount ≤ wordSize := by
  have hall := List.all_eq_true.mp hfit ino (List.mem_range.mpr (h.fresh ino i hi))
  rw [hi] at hall
  simpa using hall

/-- The third descriptor of the only table is the only one for an open file, which has the path
`/f`; the tree has nothing there, and the disk has the file. -/
def lastOne (w : World ListDisk) : Bool :=
  match w.procs, w.tables with
  | [0], [t] =>
    (List.range maxFd).all (fun fd => fd = 3 || !(t.lookup fd).any fun info =>
      match info.file with | .opened _ => true | _ => false) &&
    (t.lookup 3).map FdInfo.file = some (.opened 0) &&
    (((w.files 0).bind fun f => w.vfs.dentries f.fDentry).map Dentry.dPath) = some ['/', 'f'] &&
    ((rootOf w.vfs).bind fun r => NamedTrees.walk (childOf w.vfs) r [['f']]) = none &&
    w.vfs.disk.any (·.1 = ['/', 'f'])
  | _, _ => false

theorem careful_of_lastOne {w : World ListDisk} (h : Sound dev w) (hlast : lastOne w) :
    Careful listDisk w (.close 0 3) := by
  unfold lastOne at hlast
  split at hlast
  · rename_i t hprocs htables
    simp only [Bool.and_eq_true,decide_eq_true_eq] at hlast
    obtain ⟨⟨⟨⟨honly,hthree⟩,hpath⟩,hwalk⟩,hdisk⟩ := hlast
    intro ti t₁ id flags f d hp ht hfd hf hd
    rw [hprocs] at hp
    cases hp
    rw [htables] at ht
    cases ht
    rw [hfd] at hthree
    cases hthree
    rw [hf,Option.bind_some,hd,Option.map_some,Option.some.injEq] at hpath
    refine ⟨?_,fun _ => ⟨?_,?_⟩⟩
    · rintro ⟨tj,t₁,fd,flags',htj,hfd',hnot⟩
      rw [htables] at htj
      obtain rfl : tj = 0 := by
        by_contra hne
        rw [List.getElem?_eq_none (by simp; omega)] at htj
        cases htj
      cases htj
      have hlt := (h.tables t (by simp [htables])).bound fd (by simp [hfd'])
      have hcheck := List.all_eq_true.mp honly fd (List.mem_range.mpr hlt)
      rw [hfd'] at hcheck
      simp at hcheck
      exact hnot ⟨rfl,hcheck⟩
    · rw [hpath]
      exact ⟨_,if_pos hdisk⟩
    · rw [hpath]
      rintro c e ⟨r,hr,hl⟩ -
      have hsome := hl.walk_eq
      rw [show rootOf w.vfs = some r from hr,Option.bind_some] at hwalk
      rw [show components ['/','f'] = [['f']] by decide,hwalk] at hsome
      cases hsome
  · cases hlast

theorem along_cons {P : World δ → FileOp → Prop} (h : op.exec lw () w = .ok () w') (hop : P w op)
    (hrest : Along lw P w' ops) : Along lw P w (op :: ops) := by
  intro w₁ h₁
  cases h.symm.trans h₁
  exact ⟨hop,hrest⟩

theorem careful_first (path : Str) (flags : OpenFlags) :
    Careful lw (World.start s) (.openat 0 path flags) := by
  intro ti t hp ht _
  cases hp
  cases ht
  exact ⟨3,Finset.mem_Ico.mpr ⟨le_rfl,by decide⟩⟩

/-- A disk with one file. -/
def oneFile : Vfs ListDisk := Vfs.cold [(['/', 'f'], .regFile)]

/-- The file is opened, unlinked and closed; with the close it goes from the disk. -/
def unlinkedOps : List FileOp :=
  [.openat 0 ['/', 'f'] OpenFlags.O_RDONLY, .unlinkat ['/'] ['/', 'f'] false, .close 0 3]

/-- The file is opened, its descriptor is copied, and one of the two is closed. -/
def copiedOps : List FileOp :=
  [.openat 0 ['/', 'f'] OpenFlags.O_RDONLY, .dup 0 3, .close 0 3]

end DuckOs.FileLives
