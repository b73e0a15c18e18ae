import DuckOs.VfsMounts

namespace DuckOs.FailedCalls
open ExecutionRules PathModel VfsModel VfsTrees VfsLookups VfsMounts Function

variable {δ : Type} {lw : Lwext4 δ} {s s' t : Vfs δ} {self : ℕ} {d : Dentry}

/-- The methods of `Dentry` that change a directory. -/
inductive DirectoryCall where
  | link (parent : ℕ) (newName : Str)
  | symbolLink (name target : Str)
  | rename (oldName : Str) (newParent : ℕ) (newName : Str)
  | unlink (child : ℕ)

def DirectoryCall.run (lw : Lwext4 δ) (self : ℕ) : DirectoryCall → Fs δ Unit
  | .link parent newName => VfsModel.link lw self parent newName
  | .symbolLink name target => VfsModel.symbolLink lw self name target
  | .rename oldName newParent newName => VfsModel.rename lw self oldName newParent newName
  | .unlink child => VfsModel.unlink lw self child

/-- The tree with the fields of its entries, the cache and the counts of links are as they were. -/
structure Untouched (s s' : Vfs δ) : Prop where
  entries : ∀ id d, s.dentries id = some d → ∃ d', s'.dentries id = some d' ∧ d'.dName = d.dName ∧
    d'.dPath = d.dPath ∧ d'.dParent = d.dParent ∧
    ∀ name, d'.dChild.lookup name = d.dChild.lookup name
  cache : ∀ path, s'.cache.lookup path = s.cache.lookup path
  links : ∀ ino i, s.inodes ino = some i →
    ∃ i', s'.inodes ino = some i' ∧ i'.iLinkCount = i.iLinkCount

/-- The cache has only entries that are there already. -/
def Numbered (s : Vfs δ) : Prop := ∀ path c, s.cache.lookup path = some c → c < s.nextDentry

def Ext4Entry (s : Vfs δ) (id : ℕ) : Prop := ∃ d, s.dentries id = some d ∧ d.kind = .ext4

def FullDirectory (s : Vfs δ) (id : ℕ) : Prop := ∃ d i, s.dentries id = some d ∧
  s.inodes d.dInode = some i ∧ i.iMode = .Directory ∧ ¬ d.dChild.entries.isEmpty

def Detached (s : Vfs δ) (self id : ℕ) : Prop := ∃ d i, s.dentries id = some d ∧
  s.inodes d.dInode = some i ∧ i.iMode = .Directory ∧ d.dParent = none ∧
  s.cache.lookup d.dPath = none ∧ childOf s self d.dName = none

/-- Before the call there is nothing that it would write, or a reason to end it. -/
def DirectoryCall.Harmless (self : ℕ) (s : Vfs δ) : DirectoryCall → Prop
  | .link _ _ => False
  | .symbolLink _ _ => False
  | .rename _ newParent newName => ∃ e, childOf s newParent newName = some e ∧ FullDirectory s e
  | .unlink child => Detached s self child

def Leaves (s : Vfs δ) (P : Prop) (e : Fault) (s' : Vfs δ) : Prop :=
  ∀ x, e = .errno x → (Untouched s s' ↔ P)

theorem untouched_refl (s : Vfs δ) : Untouched s s :=
  ⟨fun _ d hd => ⟨d,hd,rfl,rfl,rfl,fun _ => rfl⟩,fun _ => rfl,fun _ i hi => ⟨i,hi,rfl⟩⟩

theorem untouched_disk (disk : δ) : Untouched s { t with disk := disk } ↔ Untouched s t :=
  ⟨fun h => ⟨h.entries,h.cache,h.links⟩,fun h => ⟨h.entries,h.cache,h.links⟩⟩

section Methods

variable {P : Prop}

theorem onDisk_leaves (x : EStateM VirtMemoryModel.Errno δ Unit)
    (h : ∀ disk, Untouched s { t with disk := disk } ↔ P) :
    Holds (onDisk x) t (fun _ _ => True) (Leaves s P) := by
  refine (onDisk_changes x).mono (fun _ _ _ => trivial) ?_
  rintro e _ ⟨disk,rfl⟩ _ _
  exact h disk

theorem moveNode_leaves (mode : InodeMode) (oldPath newPath : Str)
    (h : ∀ disk, Untouched s { t with disk := disk } ↔ P) :
    Holds (moveNode lw mode oldPath newPath) t (fun _ _ => True) (Leaves s P) := by
  cases mode with
  | Regular => exact onDisk_leaves _ h
  | Directory => exact onDisk_leaves _ h
  | _ => exact stop_after

theorem link_leaves (hd : s.dentries self = some d) (hk : d.kind = .ext4) (parent : ℕ)
    (newName : Str) : Holds (link lw self parent newName) s (fun _ _ => True) (Leaves s False) := by
  refine holds_bind_ok (dentry_eq hd) ?_
  rw [hk,if_neg ext4_ne_device]
  refine inodeMeta_bind fun i hi => ?_
  refine holds_bind_ok rfl ?_
  refine dentry_bind fun p _ => ?_
  refine cwdAndName_bind fun path _ _ => ?_
  refine holds_bind_ok rfl ?_
  refine holds_bind_ok rfl ?_
  refine onDisk_leaves _ fun disk => ⟨fun h => ?_,False.elim⟩
  obtain ⟨i',hi',hcount⟩ := h.links d.dInode i hi
  have hnew : i' = { i with iLinkCount := i.iLinkCount + 1 } :=
    Option.some.inj (hi'.symm.trans (update_self _ _ _))
  rw [hnew] at hcount
  exact Nat.succ_ne_self _ hcount

theorem symbolLink_leaves (hn : Numbered s) (hd : s.dentries self = some d) (hk : d.kind = .ext4)
    (name target : Str) :
    Holds (symbolLink lw self name target) s (fun _ _ => True) (Leaves s False) := by
  refine holds_bind_ok (dentry_eq hd) ?_
  rw [if_pos hk]
  refine cwdAndName_bind fun path _ _ => ?_
  refine holds_bind_ok rfl ?_
  refine holds_bind_ok rfl ?_
  refine holds_bind_ok rfl ?_
  refine onDisk_leaves _ fun disk => ⟨fun h => ?_,False.elim⟩
  have hcached : s.cache.lookup path = some s.nextDentry :=
    (h.cache path).symm.trans (AList.lookup_insert _)
  exact (hn path _ hcached).false

def cut (s : Vfs δ) (self child : ℕ) (c : Dentry) : Vfs δ :=
  ((s.withDentry child fun c => { c with dParent := none }).cacheRemove c.dPath).removeChild self
    c.dName

theorem cut_dentries (self child : ℕ) (c : Dentry) (id : ℕ) :
    (cut s self child c).dentries id = (s.dentries id).map fun d => { d with
      dParent := if id = child then none else d.dParent
      dChild := if id = self then d.dChild.erase c.dName else d.dChild } := by
  have hparent : (s.withDentry child fun c => { c with dParent := none }).dentries id =
      (s.dentries id).map fun d =>
        { d with dParent := if id = child then none else d.dParent } := by
    by_cases hid : id = child
    · subst hid
      simp [Vfs.withDentry]
    · simp [Vfs.withDentry,hid]
  by_cases hid : id = self
  · subst hid
    refine (update_self _ _ _).trans ?_
    change Option.map _ ((s.withDentry child fun c => { c with dParent := none }).dentries id) = _
    rw [hparent,Option.map_map]
    simp [comp_def]
  · refine (update_of_ne hid _ _).trans ?_
    exact hparent.trans (by simp [hid])

theorem cut_untouched_iff {child : ℕ} {c : Dentry} (hd : s.dentries self = some d)
    (hc : s.dentries child = some c) : Untouched s (cut s self child c) ↔
      c.dParent = none ∧ s.cache.lookup c.dPath = none ∧ childOf s self c.dName = none := by
  constructor
  · intro h
    refine ⟨?_,?_,?_⟩
    · obtain ⟨c',hc',-,-,hparent,-⟩ := h.entries child c hc
      rw [cut_dentries,hc] at hc'
      obtain rfl := Option.some.inj hc'
      simpa using hparent.symm
    · rw [← h.cache]
      exact AList.lookup_erase _ _
    · obtain ⟨d',hd',-,-,-,hchild⟩ := h.entries self d hd
      rw [cut_dentries,hd] at hd'
      obtain rfl := Option.some.inj hd'
      rw [childOf_eq hd,← hchild]
      simp
  · rintro ⟨hparent,hcache,hchild⟩
    refine ⟨fun id d' hd' => ?_,fun path => ?_,fun _ i hi => ⟨i,hi,rfl⟩⟩
    · refine ⟨_,(cut_dentries self child c id).trans (congrArg _ hd'),rfl,rfl,?_,fun name => ?_⟩
      · dsimp only
        by_cases hid : id = child
        · subst hid
          cases hd'.symm.trans hc
          rw [if_pos rfl,hparent]
        · rw [if_neg hid]
      · dsimp only
        by_cases hid : id = self
        · subst hid
          rw [childOf_eq hd'] at hchild
          rw [if_pos rfl,erase_absent hchild]
        · rw [if_neg hid]
    · change (s.cache.erase c.dPath).lookup path = _
      rw [erase_absent hcache]

theorem unlink_leaves (hd : s.dentries self = some d) (hk : d.kind = .ext4) (child : ℕ) :
    Holds (unlink lw self child) s (fun _ _ => True) (Leaves s (Detached s self child)) := by
  refine holds_bind_ok (dentry_eq hd) ?_
  rw [if_neg (hk ▸ ext4_ne_device)]
  refine dentry_bind fun c hc => ?_
  refine holds_bind_ok (t := cut s self child c) rfl ?_
  refine inodeMeta_bind fun i hi => ?_
  change s.inodes c.dInode = some i at hi
  have hdetached : Detached s self child ↔ i.iMode = .Directory ∧ c.dParent = none ∧
      s.cache.lookup c.dPath = none ∧ childOf s self c.dName = none := by
    simp [Detached,hc,hi]
  split
  · rename_i hmode
    refine holds_bind_ok (t := (cut s self child c).setInode c.dInode
      { i with iLinkCount := wordPred i.iLinkCount }) rfl ?_
    split_ifs with hcond
    · refine holds_bind_ok rfl ?_
      refine onDisk_leaves _ fun disk => ?_
      rw [hdetached,hmode]
      refine ⟨fun h => ?_,fun h => by cases h.1⟩
      obtain ⟨i',hi',hcount⟩ := h.links c.dInode i hi
      obtain rfl := Option.some.inj (hi'.symm.trans (update_self _ _ _))
      change wordPred i.iLinkCount = i.iLinkCount at hcount
      rw [hcond.2.1] at hcount
      rw [← hcount] at hcond
      exact absurd hcond.2.1 (by decide)
    · exact holds_pure trivial
  · rename_i hmode
    rw [if_pos hk]
    refine onDisk_leaves _ fun disk => ?_
    rw [hdetached,hmode,untouched_disk,cut_untouched_iff hd hc,eq_self,true_and]
  · exact stop_after

theorem overlapping_leaves (newParent overlap : ℕ) :
    Holds (overlapping self newParent overlap : Fs δ Unit) s (fun _ _ => False)
      (Leaves s (FullDirectory s overlap)) := by
  unfold overlapping
  split
  · exact stop_after
  · refine dentry_bind fun o ho => ?_
    refine inodeMeta_bind fun i hi => ?_
    split
    · refine holds_bind_ok rfl ?_
      exact stop_after
    · rename_i hempty
      split_ifs with hmode
      · refine holds_throw fun _ _ => ⟨fun _ => ?_,fun _ => untouched_refl s⟩
        exact ⟨o,i,ho,hi,hmode,fun h => hempty (.inr ⟨hmode,h⟩)⟩
      · exact stop_after

theorem rename_leaves (hd : s.dentries self = some d) (hk : d.kind = .ext4) (oldName : Str)
    (newParent : ℕ) (newName : Str) :
    Holds (rename lw self oldName newParent newName) s (fun _ _ => True)
      (Leaves s (∃ e, childOf s newParent newName = some e ∧ FullDirectory s e)) := by
  refine holds_bind_ok (dentry_eq hd) ?_
  rw [if_pos hk]
  split_ifs with hapart
  · exact stop_after
  · refine dentry_bind fun new hnew => ?_
    refine cwdAndName_bind fun newPath _ _ => ?_
    rw [← childOf_eq hnew]
    cases hover : childOf s newParent newName with
    | some overlap =>
      have hiff : (∃ e, some overlap = some e ∧ FullDirectory s e) ↔ FullDirectory s overlap := by
        simp
      rw [hiff]
      exact (overlapping_leaves newParent overlap).bind fun _ _ h => h.elim
    | none =>
      have hiff : (∃ e, none = some e ∧ FullDirectory s e) ↔ False := by simp
      rw [hiff]
      refine unwrap_bind fun child hchild => ?_
      refine holds_bind_ok rfl ?_
      split_ifs with hother
      · exact stop_after
      · refine dentry_bind fun c _ => ?_
        refine inodeMeta_bind fun i _ => ?_
        refine cwdAndName_bind fun oldPath _ _ => ?_
        refine holds_bind_ok rfl ?_
        refine moveNode_leaves _ _ _ fun disk => ⟨fun h => ?_,False.elim⟩
        obtain ⟨d',hd',-,-,-,hlost⟩ := h.entries self d hd
        have hself : d' = { d with dChild := d.dChild.erase oldName } := by
          refine Option.some.inj (hd'.symm.trans ?_)
          refine (update_of_ne hapart _ _).trans ?_
          refine (update_of_ne (fun h => hother (.inl h.symm)) _ _).trans ?_
          refine (update_self _ _ _).trans ?_
          rw [hd]
          rfl
        have hkept := hlost oldName
        rw [hself,hchild,AList.lookup_erase] at hkept
        cases hkept

end Methods

/-- A call on an ext4 entry that ends with an error has changed the records already, but for a
rename onto a directory with entries and the removal of a directory that is out of the tree. -/
theorem failed_call_untouched_iff (call : DirectoryCall) {x : VirtMemoryModel.Errno}
    (hn : Numbered s) (hself : Ext4Entry s self)
    (h : call.run lw self s = .error (.errno x) s') : Untouched s s' ↔ call.Harmless self s := by
  obtain ⟨d,hd,hk⟩ := hself
  cases call with
  | link parent newName => exact (link_leaves hd hk parent newName).of_error h x rfl
  | symbolLink name target => exact (symbolLink_leaves hn hd hk name target).of_error h x rfl
  | rename oldName newParent newName =>
    exact (rename_leaves hd hk oldName newParent newName).of_error h x rfl
  | unlink child => exact (unlink_leaves hd hk child).of_error h x rfl

theorem numbered_of_treeInv {dev : Prop} {top : TreeTop} (inv : TreeInv dev top s) :
    Numbered s := by
  intro path c hc
  by_contra hge
  obtain ⟨d,hd,-⟩ := inv.cached path c hc
  rw [inv.fresh c (not_lt.mp hge)] at hd
  cases hd

abbrev fullDisk : ListDisk := [(['/', 'f'], .regFile), (['/', 'd'], .dir),
  (['/', 'd', '/', 'e'], .dir), (['/', 'd', '/', 'e', '/', 'x'], .regFile)]

/-- The new name is that of a directory with a file. -/
theorem failed_rename_untouched : ∃ s s' : Vfs ListDisk,
    mount listDisk 4 ['/'] true .EXT4 (Vfs.cold fullDisk) = .ok () s ∧
    (DirectoryCall.rename ['f'] 2 ['e']).run listDisk 0 s = .error (.errno .ENOTEMPTY) s' ∧
    Untouched s s' := by
  have hrun : returnsWith (mount listDisk 4 ['/'] true .EXT4) (Vfs.cold fullDisk) (fun _ s =>
      (s.dentries 0).map (fun d => d.kind) = some .ext4 && childOf s 2 ['e'] = some 3 &&
      (s.dentries 3).map (fun d => (d.dInode, d.dChild.entries.isEmpty)) = some (3, false) &&
      (s.inodes 3).map (fun i => i.iMode) = some .Directory &&
      stopsWith ((DirectoryCall.rename ['f'] 2 ['e']).run listDisk 0) s
        fun e _ => e = .errno .ENOTEMPTY) = true := by decide +kernel
  obtain ⟨_,s,hs,hrun⟩ := returnsWith_elim hrun
  simp only [Bool.and_eq_true,decide_eq_true_eq] at hrun
  obtain ⟨⟨⟨⟨hroot,hchild⟩,hfull⟩,hmode⟩,hfails⟩ := hrun
  obtain ⟨_,s',hs',herr⟩ := stopsWith_elim hfails
  obtain rfl := of_decide_eq_true herr
  have inv : Stands False s :=
    (mountExt4_holds listDisk (cold_stands _) rfl rfl listsNames_listDisk 4).of_ok hs
  obtain ⟨d,hd,hdata⟩ := Option.map_eq_some_iff.mp hfull
  obtain ⟨i,hi,himode⟩ := Option.map_eq_some_iff.mp hmode
  simp only [Prod.mk.injEq] at hdata
  refine ⟨s,s',hs,hs',(failed_call_untouched_iff (.rename ['f'] 2 ['e'])
    (numbered_of_treeInv inv) (Option.map_eq_some_iff.mp hroot) hs').mpr ⟨3,hchild,d,i,hd,?_⟩⟩
  rw [hdata.1,hdata.2]
  exact ⟨hi,himode,Bool.false_ne_true⟩

/-- The disk has a file of that name, but the link is counted and the name is taken. -/
theorem failed_link_counted : ∃ s s' : Vfs ListDisk,
    mount listDisk 2 ['/'] true .EXT4 (Vfs.cold [(['/', 'f'], .regFile)]) = .ok () s ∧
    (DirectoryCall.link 0 ['f']).run listDisk 1 s = .error (.errno .EEXIST) s' ∧
    s.inodes 1 = some ⟨.Regular, 1, 0⟩ ∧ s'.inodes 1 = some ⟨.Regular, 2, 0⟩ ∧
    childOf s 0 ['f'] = some 1 ∧ childOf s' 0 ['f'] = some 2 ∧ ¬ Untouched s s' := by
  have hrun : returnsWith (mount listDisk 2 ['/'] true .EXT4) (Vfs.cold [(['/','f'], .regFile)])
      (fun _ s => s.inodes 1 = some ⟨.Regular,1,0⟩ && childOf s 0 ['f'] = some 1 &&
        stopsWith ((DirectoryCall.link 0 ['f']).run listDisk 1) s fun e s' =>
          e = .errno .EEXIST && s'.inodes 1 = some ⟨.Regular,2,0⟩ &&
          childOf s' 0 ['f'] = some 2) = true := by decide +kernel
  obtain ⟨_,s,hs,hrun⟩ := returnsWith_elim hrun
  simp only [Bool.and_eq_true,decide_eq_true_eq] at hrun
  obtain ⟨⟨hcount,hchild⟩,hfails⟩ := hrun
  obtain ⟨_,s',hs',htest⟩ := stopsWith_elim hfails
  simp only [Bool.and_eq_true,decide_eq_true_eq] at htest
  obtain ⟨⟨rfl,hcount'⟩,hchild'⟩ := htest
  refine ⟨s,s',hs,hs',hcount,hcount',hchild,hchild',fun h => ?_⟩
  obtain ⟨i,hi,hlinks⟩ := h.links 1 _ hcount
  rw [hcount'] at hi
  cases hi
  exact absurd hlinks (by decide)

end DuckOs.FailedCalls
