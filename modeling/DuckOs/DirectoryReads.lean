import DuckOs.DescriptorTables
import DuckOs.DirentModel
import DuckOs.SortedKeys
import DuckOs.VfsCalls

namespace DuckOs.DirectoryReads
open ExecutionRules PathModel VfsModel VfsTrees VfsLookups VfsCalls FdTables DirentModel SortedKeys
  Function
open DescriptorTables (onTable_eq get_some set_same)

variable {δ : Type} {d : Dentry} {count p fd : ℕ} {l : List (Str × ℕ)} {r r' : Listing}
  {file : FileMeta}
  {n m : Str} {s : Vfs δ} {w : World δ}

def names (d : Dentry) : List Str := (children d).map Prod.fst

theorem perm_names (d : Dentry) : (names d).Perm d.dChild.keys := by
  have h := (List.perm_insertionSort (fun a b : Str × ℕ => a.1 ≤ b.1)
    (d.dChild.entries.map fun e => (e.1, e.2))).map Prod.fst
  rwa [List.map_map] at h

theorem mem_names : n ∈ names d ↔ d.dChild.lookup n ≠ none := by
  rw [(perm_names d).mem_iff,← AList.mem_keys,ne_eq,AList.lookup_eq_none,not_not]

theorem sorted_names (d : Dentry) : (names d).Pairwise (· < ·) := by
  have hle : (names d).Pairwise (· ≤ ·) := List.pairwise_map.mpr (List.pairwise_insertionSort _ _)
  have hne : (names d).Nodup := (perm_names d).nodup_iff.mpr d.dChild.nodupKeys
  exact hle.imp₂ (fun _ _ h hne => lt_of_le_of_ne h hne) hne

theorem take_names {d' : Dentry} {i : ℕ}
    (hsame : ∀ k, k ≠ m → d'.dChild.lookup k = d.dChild.lookup k)
    (hi : i ≤ (below (names d) m).length) :
    (names d').take i = (names d).take i ∧ i ≤ (names d').length := by
  have hmem : ∀ k < m, k ∈ names d ↔ k ∈ names d' := fun k hk => by
    rw [mem_names,mem_names,hsame k hk.ne]
  refine ⟨(take_congr (sorted_names d) (sorted_names d') hmem hi).symm,?_⟩
  rw [below_congr (sorted_names d) (sorted_names d') hmem] at hi
  exact hi.trans (List.length_filter_le _ _)

def IsRecord (s : Vfs δ) (e : Str × ℕ) (r : Record) : Prop :=
  ∃ c i, s.dentries e.2 = some c ∧ s.inodes c.dInode = some i ∧
    r = ⟨loadDirent64 c.dInode (direntType i.iMode) (recordSize e.1 % 2 ^ 16), e.1⟩

structure Listed (s : Vfs δ) (count : ℕ) (l : List (Str × ℕ)) (r r' : Listing) : Prop where
  written : ∃ j recs, j ≤ l.length ∧ List.Forall₂ (IsRecord s) (l.take j) recs ∧
    r'.records = r.records ++ recs ∧ r'.direntIndex = r.direntIndex + j ∧
    r'.bufOff = r.bufOff + (recs.map fun e => recordSize e.name).sum ∧
    ∀ e, l[j]? = some e → count < r'.bufOff + recordSize e.1

theorem Listed.none (hfull : ∀ e, l.head? = some e → count < r.bufOff + recordSize e.1) :
    Listed s count l r r := by
  refine ⟨0,[],Nat.zero_le _,by simp,by simp,rfl,by simp,fun e he => hfull e ?_⟩
  rwa [List.head?_eq_getElem?]

theorem listChildren_holds (count start : ℕ) :
    ∀ (l : List (Str × ℕ)) (k : ℕ) (r : Listing), r.direntIndex = max k start →
    Holds (listChildren count start (l.zipIdx k) r) s
      (fun r' s' => s = s' ∧ Listed s count (l.drop (start - k)) r r') (After fun _ => True) := by
  intro l
  induction l with
  | nil =>
    intro k r _
    exact holds_pure ⟨rfl,.none fun e he => by simp at he⟩
  | cons e l ih =>
    intro k r hidx
    rw [List.zipIdx_cons,listChildren]
    split_ifs with hk
    · have hdrop : start - k = (start - (k + 1)) + 1 := by omega
      rw [hdrop,List.drop_succ_cons]
      exact ih (k + 1) r (by omega)
    · have hzero : start - k = 0 := by omega
      rw [hzero,List.drop_zero]
      refine dentry_bind fun c hc => ?_
      refine inodeMeta_bind fun i hi => ?_
      dsimp only
      split_ifs with hfull
      · refine holds_pure ⟨rfl,.none fun e he => ?_⟩
        cases he
        exact hfull
      · refine (ih (k + 1) _ (by dsimp only; omega)).imp ?_
        rintro r' _ ⟨rfl,j,recs,hj,hrecs,hr,hindex,hoff,hnext⟩
        have hzero' : start - (k + 1) = 0 := by omega
        rw [hzero',List.drop_zero] at hj hrecs hnext
        refine ⟨rfl,j + 1,_ :: recs,by simpa using hj,.cons ⟨c,i,hc,hi,rfl⟩ hrecs,?_,?_,
          ?_,fun e he => hnext e (by simpa using he)⟩
        · simpa using hr
        · dsimp only at hindex
          omega
        · dsimp only at hoff
          simp only [List.map_cons,List.sum_cons]
          omega

theorem names_of_records {recs : List Record} (h : List.Forall₂ (IsRecord s) l recs) :
    recs.map Record.name = l.map Prod.fst := by
  induction h with
  | nil => rfl
  | cons hrec _ ih =>
    obtain ⟨_,_,_,_,rfl⟩ := hrec
    simp [ih]

theorem Listed.names_eq (h : Listed s count l r r') :
    ∃ j, j ≤ l.length ∧ r'.direntIndex = r.direntIndex + j ∧
      r'.records.map Record.name = r.records.map Record.name ++ (l.take j).map Prod.fst := by
  obtain ⟨j,recs,hj,hrecs,hr,hindex,-⟩ := h.written
  exact ⟨j,hj,hindex,by rw [hr,List.map_append,names_of_records hrecs]⟩

theorem Listed.through (h : Listed s count l r r') (hroom : ∀ e ∈ l, recordSize e.1 ≤ count)
    (hoff : r'.bufOff = 0) : l = [] := by
  obtain ⟨j,recs,-,hrecs,-,-,hsum,hnext⟩ := h.written
  have hnone : recs = [] := by
    cases recs with
    | nil => rfl
    | cons rec recs =>
      simp only [List.map_cons,List.sum_cons,recordSize] at hsum
      omega
  rw [hnone,List.forall₂_nil_right_iff,List.take_eq_nil_iff] at hrecs
  rcases hrecs with hj | hl
  · cases l with
    | nil => rfl
    | cons e l =>
      have hfull := hnext e (by rw [hj]; rfl)
      have := hroom e List.mem_cons_self
      omega
  · exact hl

/-- The open file of a descriptor. -/
def fileOf (w : World δ) (p fd : ℕ) : Option FileMeta := do
  let ti ← w.procs[p]?
  let t ← w.tables[ti]?
  let info ← t.lookup fd
  match info.file with
  | .opened id => w.files id
  | _ => none

theorem fileOf_eq_some (h : fileOf w p fd = some file) :
    ∃ ti t info id, w.procs[p]? = some ti ∧ w.tables[ti]? = some t ∧ t.lookup fd = some info ∧
      info.file = .opened id ∧ w.files id = some file := by
  simp only [fileOf,Option.bind_eq_bind,Option.bind_eq_some_iff] at h
  obtain ⟨ti,hti,t,ht,info,hinfo,hfile⟩ := h
  cases hid : info.file with
  | opened id =>
    rw [hid] at hfile
    exact ⟨ti,t,info,id,hti,ht,hinfo,hid,hfile⟩
  | _ => simp [hid] at hfile

theorem onVfs_holds {α : Type} {x : Fs δ α} {Q : α → Vfs δ → Prop} {E : Fault → Vfs δ → Prop}
    (h : Holds x w.vfs Q E) : Holds (onVfs x) w (fun a w' => ∃ s, w' = { w with vfs := s } ∧ Q a s)
      fun e w' => ∃ s, w' = { w with vfs := s } ∧ E e s := by
  unfold Holds onVfs at *
  cases hx : x w.vfs with
  | ok a s =>
    rw [hx] at h
    exact ⟨s,rfl,h⟩
  | error e s =>
    rw [hx] at h
    exact ⟨s,rfl,h⟩

theorem getdents_holds (hd : s.dentries file.fDentry = some d) (count : ℕ) :
    Holds (getdents file count) s (fun r s' => s = s' ∧
      Listed s count ((children d).drop file.direntIndex) ⟨[], 0, file.direntIndex⟩ r)
      (After fun _ => True) := by
  refine holds_bind_ok (dentry_eq hd) ?_
  refine inodeMeta_bind fun i _ => ?_
  split
  · exact fail_after trivial
  · exact listChildren_holds count file.direntIndex (children d) 0 _ (Nat.zero_max _).symm

theorem onTable_get {ti : ℕ} {t : FdTable} {info : FdInfo} (hti : w.procs[p]? = some ti)
    (ht : w.tables[ti]? = some t) (hinfo : t.lookup fd = some info) :
    onTable p (FdTable.get fd) w = .ok info w := by
  rw [onTable_eq hti ht,get_some hinfo]
  simp only [World.withTable,set_same ht]

theorem sysGetdents64_holds (hfile : fileOf w p fd = some file)
    (hd : w.vfs.dentries file.fDentry = some d) (count : ℕ) :
    Holds (sysGetdents64 p fd count) w (fun r w' => w'.vfs = w.vfs ∧
      fileOf w' p fd = some { file with direntIndex := r.direntIndex } ∧
      Listed w.vfs count ((children d).drop file.direntIndex) ⟨[], 0, file.direntIndex⟩ r)
      fun _ _ => True := by
  obtain ⟨ti,t,info,id,hti,ht,hinfo,hid,hopen⟩ := fileOf_eq_some hfile
  refine holds_bind_ok (onTable_get hti ht hinfo) ?_
  rw [hid]
  refine holds_get ?_
  rw [hopen]
  refine holds_bind_ok (rfl : (orStop (some file) : Sys δ FileMeta) w = .ok file w) ?_
  refine (onVfs_holds (getdents_holds hd count)).orAny.bind ?_
  rintro r _ ⟨_,rfl,rfl,hlisted⟩
  refine holds_ok rfl ⟨rfl,?_,hlisted⟩
  simp [fileOf,hti,ht,hinfo,hid]

section Changes

variable {s' : Vfs δ} {q c : ℕ} {dq dc : Dentry}

def OnlyName (q : ℕ) (m : Str) (dq : Dentry) (s s' : Vfs δ) : Prop :=
  s.nextDentry ≤ s'.nextDentry ∧
    ∃ d, s'.dentries q = some d ∧ ∀ k, k ≠ m → d.dChild.lookup k = dq.dChild.lookup k

theorem dentry_none {id : ℕ} (h : s.dentries id = none) :
    dentry id s = .error (.panic .unwrapNone) s := by
  unfold dentry
  rw [get_bind,h]
  rfl

theorem inodeMeta_none {ino : ℕ} (h : s.inodes ino = none) :
    inodeMeta ino s = .error (.panic .unwrapNone) s := by
  unfold inodeMeta
  rw [get_bind,h]
  rfl

theorem create_onlyName (lw : Lwext4 δ) (hq : s.dentries q = some dq) (hlt : q < s.nextDentry)
    (hname : ValidName m) (mode : InodeMode) :
    Holds (create lw q m mode) s (fun _ => OnlyName q m dq s) fun _ => OnlyName q m dq s := by
  refine (create_creates lw hq hname mode).mono ?_ ?_
  · rintro _ _ ⟨disk,-,-,rfl⟩
    have hentry : (addEntry (withInode { s with disk := disk } mode)
        ⟨dq.kind,formatPath m,joinName m dq.dPath,s.nextInode,none,∅⟩).dentries q = some dq :=
      (update_of_ne hlt.ne _ _).trans hq
    refine ⟨Nat.le_succ _,{ dq with dChild := dq.dChild.insert m s.nextDentry },?_,
      fun k hk => AList.lookup_insert_ne hk⟩
    refine (update_of_ne hlt.ne _ _).trans ?_
    refine (update_self _ _ _).trans ?_
    rw [hentry]
    rfl
  · rintro _ _ ⟨disk,rfl⟩
    exact ⟨le_rfl,dq,hq,fun _ _ => rfl⟩

theorem dropNode_dentries (lw : Lwext4 δ) (kind : DentryKind) (d : Dentry) :
    Holds (dropNode lw kind d) s
      (fun _ s' => s'.dentries = s.dentries ∧ s'.nextDentry = s.nextDentry)
      fun _ s' => s'.dentries = s.dentries ∧ s'.nextDentry = s.nextDentry := by
  have hdisk : ∀ {t : Vfs δ} (x : EStateM VirtMemoryModel.Errno δ Unit),
      t.dentries = s.dentries → t.nextDentry = s.nextDentry →
      Holds (onDisk x) t (fun _ s' => s'.dentries = s.dentries ∧ s'.nextDentry = s.nextDentry)
        fun _ s' => s'.dentries = s.dentries ∧ s'.nextDentry = s.nextDentry := fun x h h' => by
    refine (onDisk_changes x).mono ?_ ?_ <;>
    · rintro _ _ ⟨disk,rfl⟩
      exact ⟨h,h'⟩
  cases hi : s.inodes d.dInode with
  | none =>
    exact holds_error (bind_error (inodeMeta_none hi)) ⟨rfl,rfl⟩
  | some i =>
    refine holds_bind_ok (inodeMeta_eq hi) ?_
    split
    · refine holds_bind_ok (t := s.setInode d.dInode
        { i with iLinkCount := wordPred i.iLinkCount }) rfl ?_
      split
      · unfold rmfile
        exact holds_bind_ok rfl (hdisk _ rfl rfl)
      · exact holds_pure ⟨rfl,rfl⟩
    · split
      · exact hdisk _ rfl rfl
      · exact holds_pure ⟨rfl,rfl⟩
    · exact holds_throw ⟨rfl,rfl⟩

theorem unlinked_onlyName (hq : s.dentries q = some dq) (dc : Dentry) :
    OnlyName q dc.dName dq s (((s.withDentry c fun d =>
      { d with dParent := none }).cacheRemove dc.dPath).removeChild q dc.dName) := by
  obtain ⟨dq',hq',hchild⟩ : ∃ dq', (s.withDentry c fun d =>
      { d with dParent := none }).dentries q = some dq' ∧ dq'.dChild = dq.dChild := by
    by_cases hqc : q = c
    · subst hqc
      refine ⟨{ dq with dParent := none },(update_self _ _ _).trans ?_,rfl⟩
      rw [hq]
      rfl
    · exact ⟨dq,(update_of_ne hqc _ _).trans hq,rfl⟩
  refine ⟨le_rfl,{ dq' with dChild := dq'.dChild.erase dc.dName },?_,fun k hk => ?_⟩
  · refine (update_self _ _ _).trans ?_
    change ((s.withDentry c fun d => { d with dParent := none }).dentries q).map _ = _
    rw [hq']
    rfl
  · rw [← hchild]
    exact AList.lookup_erase_ne hk

theorem unlink_onlyName (lw : Lwext4 δ) (hq : s.dentries q = some dq) (c : ℕ) :
    Holds (unlink lw q c) s
      (fun _ s' => ∃ dc, s.dentries c = some dc ∧ OnlyName q dc.dName dq s s')
      fun _ s' => s = s' ∨ ∃ dc, s.dentries c = some dc ∧ OnlyName q dc.dName dq s s' := by
  refine holds_bind_ok (dentry_eq hq) ?_
  split
  · exact holds_throw (.inl rfl)
  · cases hc : s.dentries c with
    | none => exact holds_error (bind_error (dentry_none hc)) (.inl rfl)
    | some dc =>
      refine holds_bind_ok (dentry_eq hc) ?_
      refine holds_bind_ok rfl ?_
      have honly := unlinked_onlyName (c := c) hq dc
      refine (dropNode_dentries lw dq.kind dc).mono ?_ ?_
      · rintro _ _ ⟨hsame,hnext⟩
        exact ⟨dc,rfl,hnext ▸ honly.1,hsame ▸ honly.2⟩
      · rintro _ _ ⟨hsame,hnext⟩
        exact .inr ⟨dc,rfl,hnext ▸ honly.1,hsame ▸ honly.2⟩

end Changes

section Traversals

/-- What goes on while a directory is read. -/
inductive DirOp where
  | getdents (count : ℕ)
  | create (name : Str) (mode : InodeMode)
  | unlink (child : ℕ)

structure Traversal where
  reported : List Record
  finished : Bool

variable {a : Traversal}

def DirOp.exec (lw : Lwext4 δ) (p fd dir : ℕ) : DirOp → Traversal → Sys δ Traversal
  | .getdents count, a => do
    let r ← sysGetdents64 p fd count
    pure ⟨a.reported ++ r.records, r.bufOff = 0⟩
  | .create name mode, a => do
    settled (onVfs (VfsModel.create lw dir name mode))
    pure a
  | .unlink child, a => do
    settled (onVfs (VfsModel.unlink lw dir child))
    pure a

/-- The calls have room for any child, and the changes are of names other than `n`. -/
def DirOp.Apart (dir : ℕ) (n : Str) (a : Traversal) (w : World δ) : DirOp → Prop
  | .getdents count => a.finished = false ∧
    ∀ d ∈ w.vfs.dentries dir, ∀ name ∈ names d, recordSize name ≤ count
  | .create name _ => a.finished = false ∧ ValidName name ∧ name ≠ n
  | .unlink child => a.finished = false ∧ ∀ c ∈ w.vfs.dentries child, c.dName ≠ n

instance decidableApart (dir : ℕ) (n : Str) (a : Traversal) (w : World δ) (op : DirOp) :
    Decidable (op.Apart dir n a w) := by
  cases op <;> unfold DirOp.Apart <;> infer_instance

def Behind (p fd dir : ℕ) (w : World δ) (m : Str) : Prop :=
  ∀ file ∈ fileOf w p fd, ∀ d ∈ w.vfs.dentries dir,
    file.direntIndex ≤ (below (names d) m).length

/-- The changes are behind the place where the next call goes on. -/
def DirOp.Orderly (p fd dir : ℕ) (w : World δ) : DirOp → Prop
  | .getdents _ => True
  | .create name _ => Behind p fd dir w name
  | .unlink child => ∀ c ∈ w.vfs.dentries child, Behind p fd dir w c.dName

instance decidableBehind (p fd dir : ℕ) (w : World δ) (m : Str) :
    Decidable (Behind p fd dir w m) := by
  unfold Behind
  infer_instance

instance decidableOrderly (p fd dir : ℕ) (w : World δ) (op : DirOp) :
    Decidable (op.Orderly p fd dir w) := by
  cases op <;> unfold DirOp.Orderly <;> infer_instance

structure Reads (p fd dir : ℕ) (n : Str) (c : ℕ) (a : Traversal) (w : World δ) : Prop where
  allocated : dir < w.vfs.nextDentry
  place : ∃ file d, fileOf w p fd = some file ∧ file.fDentry = dir ∧
    w.vfs.dentries dir = some d ∧ a.reported.map Record.name = (names d).take file.direntIndex ∧
    file.direntIndex ≤ (names d).length ∧
    (a.finished = true → file.direntIndex = (names d).length) ∧ d.dChild.lookup n = some c

variable {dir c : ℕ} {w' : World δ}

theorem Reads.change (h : Reads p fd dir n c a w) (hfin : a.finished = false)
    (hd : w.vfs.dentries dir = some d) (hne : m ≠ n) (hbehind : Behind p fd dir w m)
    (honly : OnlyName dir m d w.vfs s) : Reads p fd dir n c a { w with vfs := s } := by
  obtain ⟨file,d₀,hfile,hdir,hd₀,hrep,-,-,hn⟩ := h.place
  obtain rfl : d₀ = d := Option.some.inj (hd₀.symm.trans hd)
  obtain ⟨hnext,d',hd',hsame⟩ := honly
  obtain ⟨htake,hlen⟩ := take_names hsame (hbehind file hfile d₀ hd)
  refine ⟨h.allocated.trans_le hnext,file,d',hfile,hdir,hd',by rw [htake,hrep],hlen,
    fun hf => ?_,by rw [hsame n hne.symm,hn]⟩
  rw [hfin] at hf
  cases hf

theorem Reads.getdents (h : Reads p fd dir n c a w)
    (hroom : ∀ d ∈ w.vfs.dentries dir, ∀ name ∈ names d, recordSize name ≤ count) :
    Holds (sysGetdents64 p fd count) w
      (fun r => Reads p fd dir n c ⟨a.reported ++ r.records, r.bufOff = 0⟩)
      fun _ _ => True := by
  obtain ⟨file,d,hfile,rfl,hd,hrep,hlen,-,hn⟩ := h.place
  refine (sysGetdents64_holds hfile hd count).imp ?_
  rintro r w' ⟨hvfs,hfile',hlisted⟩
  obtain ⟨j,hj,hindex,hnames⟩ := hlisted.names_eq
  have hlength : (names d).length = (children d).length := List.length_map _
  rw [List.length_drop] at hj
  dsimp only at hindex
  refine ⟨hvfs ▸ h.allocated,_,d,hfile',rfl,hvfs ▸ hd,?_,?_,fun hfin => ?_,hn⟩
  · dsimp only
    rw [List.map_append,hrep,hnames,hindex,List.take_add,names]
    simp
  · dsimp only
    omega
  · -- nothing was left to report
    have hroom' : ∀ e ∈ (children d).drop file.direntIndex, recordSize e.1 ≤ count :=
      fun e he => hroom d hd e.1 (List.mem_map_of_mem (List.mem_of_mem_drop he))
    have hnil := hlisted.through hroom' (of_decide_eq_true hfin)
    rw [List.drop_eq_nil_iff] at hnil
    dsimp only
    omega

theorem Reads.step (lw : Lwext4 δ) (op : DirOp) (h : Reads p fd dir n c a w)
    (hapart : op.Apart dir n a w) (horder : op.Orderly p fd dir w) :
    Holds (op.exec lw p fd dir a) w (Reads p fd dir n c) fun _ _ => True := by
  obtain ⟨_,d,-,-,hd,-⟩ := h.place
  cases op with
  | getdents count =>
    refine (h.getdents hapart.2).bind fun r w' hr => ?_
    exact holds_pure hr
  | create name mode =>
    obtain ⟨hfin,hname,hne⟩ := hapart
    have hcall := onVfs_holds (create_onlyName lw hd h.allocated hname mode)
    refine (settled_holds (P := Reads p fd dir n c a) (hcall.mono ?_ ?_)).bind
      fun _ _ h' => holds_pure h'
    · rintro _ _ ⟨s,rfl,honly⟩
      exact h.change hfin hd hne horder honly
    · rintro _ _ ⟨s,rfl,honly⟩ _ _
      exact h.change hfin hd hne horder honly
  | unlink child =>
    obtain ⟨hfin,hne⟩ := hapart
    have hcall := onVfs_holds (unlink_onlyName lw hd child)
    refine (settled_holds (P := Reads p fd dir n c a) (hcall.mono ?_ ?_)).bind
      fun _ _ h' => holds_pure h'
    · rintro _ _ ⟨s,rfl,dc,hc,honly⟩
      exact h.change hfin hd (hne dc hc) (horder dc hc) honly
    · rintro _ _ ⟨s,rfl,rfl | ⟨dc,hc,honly⟩⟩ _ _
      · exact h
      · exact h.change hfin hd (hne dc hc) (horder dc hc) honly

/-- Every child that is there all the time is reported once, if names only come and go behind
the place where the next call goes on. -/
theorem listing_reports_once (lw : Lwext4 δ) {w₀ : World δ}
    (hfile : fileOf w₀ p fd = some file) (hdir : file.fDentry = dir) (hstart : file.direntIndex = 0)
    (hd : w₀.vfs.dentries dir = some d) (halloc : dir < w₀.vfs.nextDentry)
    (hn : d.dChild.lookup n = some c)
    (run : Runs (DirOp.exec lw p fd dir)
      (fun op a w => op.Apart dir n a w ∧ op.Orderly p fd dir w) ⟨[], false⟩ w₀ a w) :
    childOf w.vfs dir n = some c ∧ (a.reported.map Record.name).count n ≤ 1 ∧
      (a.finished = true → (a.reported.map Record.name).count n = 1) := by
  have hreads : Reads p fd dir n c a w := by
    refine Runs.invariant (Reads p fd dir n c) (fun op a w h hop => h.step lw op hop.1 hop.2) run
      ⟨halloc,file,d,hfile,hdir,hd,?_,?_,fun hf => (by cases hf),hn⟩
    · rw [hstart]
      rfl
    · rw [hstart]
      exact Nat.zero_le _
  obtain ⟨file',d',-,-,hd',hrep,-,hfin,hn'⟩ := hreads.place
  have hnodup : (names d').Nodup := (sorted_names d').nodup
  refine ⟨by rw [childOf_eq hd',hn'],?_,fun hf => ?_⟩
  · rw [hrep]
    exact List.nodup_iff_count_le_one.mp (hnodup.sublist (List.take_sublist _ _)) n
  · rw [hrep,hfin hf,List.take_length]
    exact List.count_eq_one_of_mem hnodup (mem_names.mpr (by simp [hn']))

end Traversals

/-- A disk with three files, and its root as descriptor 3. -/
def threeFiles : World ListDisk :=
  World.start (Vfs.cold [(['/', 'a'], .regFile), (['/', 'b'], .regFile), (['/', 'c'], .regFile)])

def openRoot : Sys ListDisk ℕ := do
  onVfs (mount listDisk 2 ['/'] true .EXT4)
  sysOpen listDisk 0 ['/'] Ext4FileModel.OpenFlags.O_DIRECTORY

def readRoot (C : DirOp → Traversal → World ListDisk → Prop) [∀ op a w, Decidable (C op a w)]
    (ops : List DirOp) : Sys ListDisk Traversal := do
  let _ ← openRoot
  ops.foldlM (guarded (DirOp.exec listDisk 0 3 0) C (.panic .explicit)) ⟨[], false⟩

theorem readRoot_runs {C : DirOp → Traversal → World ListDisk → Prop}
    [∀ op a w, Decidable (C op a w)] {ops : List DirOp} {a : Traversal} {w : World ListDisk}
    (h : readRoot C ops threeFiles = .ok a w) : ∃ fd w₀, openRoot threeFiles = .ok fd w₀ ∧
      Runs (DirOp.exec listDisk 0 3 0) C ⟨[], false⟩ w₀ a w := by
  obtain ⟨fd,w₀,hopen,hrun⟩ := bind_eq_ok h
  exact ⟨fd,w₀,hopen,Runs.of_guarded _ ops .refl hrun⟩

/-- A name comes and another goes behind the child that is reported next. -/
theorem listing_reports_once_behind : ∃ fd a w₀ w, openRoot threeFiles = .ok fd w₀ ∧
    Runs (DirOp.exec listDisk 0 3 0)
      (fun op a w => op.Apart 0 ['b'] a w ∧ op.Orderly 0 3 0 w) ⟨[], false⟩ w₀ a w ∧
    a.finished = true ∧ (a.reported.map Record.name).count ['b'] = 1 := by
  have hstart : returnsWith openRoot threeFiles (fun _ w => fileOf w 0 3 = some ⟨0,0,0⟩ ∧
      0 < w.vfs.nextDentry ∧
      (w.vfs.dentries 0).bind (fun d => d.dChild.lookup ['b']) = some 2) = true := by
    decide +kernel
  have hrun : returnsWith (readRoot (fun op a w => op.Apart 0 ['b'] a w ∧ op.Orderly 0 3 0 w)
      [.getdents 21,.create ['d'] .Regular,.unlink 3,.getdents 100,.getdents 100]) threeFiles
      (fun a _ => a.finished) = true := by
    decide +kernel
  obtain ⟨a,w,hread,hfin⟩ := returnsWith_elim hrun
  obtain ⟨fd,w₀,hopen,run⟩ := readRoot_runs hread
  obtain ⟨_,_,hopen',htest⟩ := returnsWith_elim hstart
  rw [hopen] at hopen'
  cases hopen'
  obtain ⟨hfile,halloc,hchild⟩ := of_decide_eq_true htest
  obtain ⟨d,hd,hn⟩ := Option.bind_eq_some_iff.mp hchild
  exact ⟨fd,a,w₀,w,hopen,run,hfin,
    (listing_reports_once listDisk hfile rfl rfl hd halloc hn run).2.2 hfin⟩

/-- The children are removed as they are reported. The second one is never reported. -/
theorem removal_hides_child : ∃ fd a w₀ w, openRoot threeFiles = .ok fd w₀ ∧
    Runs (DirOp.exec listDisk 0 3 0) (fun op a w => op.Apart 0 ['b'] a w) ⟨[], false⟩ w₀ a w ∧
    childOf w₀.vfs 0 ['b'] = some 2 ∧ childOf w.vfs 0 ['b'] = some 2 ∧ a.finished = true ∧
    (a.reported.map Record.name).count ['b'] = 0 := by
  have hstart : returnsWith openRoot threeFiles
    (fun _ w => childOf w.vfs 0 ['b'] = some 2) = true :=
    by decide +kernel
  have hrun : returnsWith (readRoot (fun op a w => op.Apart 0 ['b'] a w)
      [.getdents 21,.unlink 1,.getdents 21,.getdents 21]) threeFiles
      (fun a w => childOf w.vfs 0 ['b'] = some 2 ∧ a.finished = true ∧
        (a.reported.map Record.name).count ['b'] = 0) = true := by
    decide +kernel
  obtain ⟨a,w,hread,hafter⟩ := returnsWith_elim hrun
  obtain ⟨fd,w₀,hopen,run⟩ := readRoot_runs hread
  obtain ⟨_,_,hopen',hbefore⟩ := returnsWith_elim hstart
  rw [hopen] at hopen'
  cases hopen'
  exact ⟨fd,a,w₀,w,hopen,run,of_decide_eq_true hbefore,of_decide_eq_true hafter⟩

end DuckOs.DirectoryReads
