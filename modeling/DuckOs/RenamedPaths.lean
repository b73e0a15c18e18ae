import DuckOs.LookupEffects

namespace DuckOs.RenamedPaths
open ExecutionRules PathModel VfsModel VfsTrees VfsLookups VfsCalls VfsMounts VfsResolution
  LookupEffects

variable {δ : Type} {dev : Prop} {lw : Lwext4 δ} {s s₁ s₂ : Vfs δ} {old new : Str} {a b c ino : ℕ}
  {o n d : Dentry} {ia ib i : InodeMeta}

def Resolves (lw : Lwext4 δ) (s : Vfs δ) (path : Str) (ino : ℕ) : Prop :=
  ∃ e t d, pathToDentry lw path s = .ok (some e) t ∧ t.dentries e = some d ∧ d.dInode = ino

/-- What the call should do: it returns, and with success the new path has the inode and the old
one, if it is another, resolves to nothing. -/
def RenameRight (lw : Lwext4 δ) (old new : Str) (ino : ℕ) : EStateM.Result Fault (Vfs δ) Unit → Prop
  | .ok _ s => Resolves lw s new ino ∧
    (components old ≠ components new → ∃ t, pathToDentry lw old s = .ok none t)
  | .error (.errno _) _ => True
  | .error (.panic _) _ => False

/-- The two parents, as the call finds them. -/
structure Parents (dev : Prop) (s : Vfs δ) (old new : Str) (a b : ℕ) (o n : Dentry)
    (ia ib : InodeMeta) : Prop where
  inv : TreeInv dev (looseTop s) s
  oldPlace : At (looseTop s) s (components (parentPath old)) a
  newPlace : At (looseTop s) s (components (parentPath new)) b
  oldEntry : s.dentries a = some o
  newEntry : s.dentries b = some n
  oldKind : o.kind = .ext4
  newKind : n.kind ≠ .device
  oldInode : s.inodes o.dInode = some ia
  newInode : s.inodes n.dInode = some ib
  newMode : ib.iMode = .Directory
  inodes : ∀ id d, s.dentries id = some d → ∃ i, s.inodes d.dInode = some i
  oldName : components old ≠ []
  newName : components new ≠ []

/-- The old path names a regular file, in the tree or on the disk only. -/
structure OldFile (lw : Lwext4 δ) (s : Vfs δ) (old : Str) (a ino : ℕ) : Prop where
  resolves : Resolves lw s old ino
  file : ∀ c, childOf s a (dentryName old) = some c → ∃ d i, s.dentries c = some d ∧
    s.inodes d.dInode = some i ∧ i.iMode = .Regular ∧ Leaf s c ∧ d.dInode = ino
  noDevice : NoDevice (looseTop s) s (absolute (components old))

def FullDirectory (s : Vfs δ) (e : ℕ) : Prop :=
  ∃ d i, s.dentries e = some d ∧ s.inodes d.dInode = some i ∧ i.iMode = .Directory ∧
    d.dChild.entries ≠ []

/-- When the call does that. -/
def Works (s : Vfs δ) (old new : Str) (a b : ℕ) (o n : Dentry) (ia : InodeMeta) : Prop :=
  if o.dInode = n.dInode then components old = components new
  else ia.iMode = .Regular ∨ ia.iMode = .Directory ∧
    match childOf s b (dentryName new) with
    | some e => e ≠ a ∧ e ≠ b ∧ FullDirectory s e
    | none => (childOf s a (dentryName old)).isSome

theorem resolves_congr (inv : TreeInv dev (looseTop s) s) (hp : components old = components new)
    (hdev : NoDevice (looseTop s) s (absolute (components old))) (h : Resolves lw s old ino) :
    Resolves lw s new ino := by
  obtain ⟨e,t,d,hold,hd,hino⟩ := h
  have hat : ∀ p x, components p = components old → s.cache.lookup p = some x →
      At (looseTop s) s (components old) x := by
    intro p x hpo hx
    have hnormal := normal_of_cached inv hx
    rw [hpo] at hnormal
    have hatp := NoDevice.at_of_cached (hnormal ▸ hdev) inv hx
    rwa [hpo] at hatp
  by_cases hfound : ∃ x, At (looseTop s) s (components old) x
  · obtain ⟨x,hx⟩ := hfound
    obtain ⟨cache,hfold⟩ := pathToDentry_found lw inv rfl hx fun y hy =>
      (hat old y rfl hy).unique hx
    obtain ⟨cache',hfnew⟩ := pathToDentry_found lw inv rfl (hp ▸ hx) fun y hy =>
      (hat new y hp.symm hy).unique hx
    rw [hold] at hfold
    cases hfold
    exact ⟨e,_,d,hfnew,hd,hino⟩
  · have hnone : ∀ p, components p = components old → s.cache.lookup p = none := by
      intro p hpo
      by_contra hne
      obtain ⟨x,hx⟩ := Option.ne_none_iff_exists'.mp hne
      exact hfound ⟨x,hat p x hpo hx⟩
    refine ⟨e,t,d,?_,hd,hino⟩
    rw [← hold]
    unfold pathToDentry
    rw [get_bind,get_bind,hnone new hp.symm,hnone old rfl,hp]

section Moving

variable {oldName newName : Str}

def renamed (s : Vfs δ) (a b c : ℕ) (oldName newName oldPath newPath : Str) : Vfs δ :=
  ((((s.removeChild a oldName).withDentry c fun d =>
    moved d newName newPath b).insertChild b newName
    c).cacheRemove oldPath).cacheInsert newPath c

section

variable (hp : Parents dev s old new a b o n ia ib)
include hp

theorem rename_eq (hab : a ≠ b) (hname : ValidName newName) (hfree : n.dChild.lookup newName = none)
    (hchild : o.dChild.lookup oldName = some c) (hslash : '/' ∉ oldName) (hca : c ≠ a) (hcb : c ≠ b)
    (hd : s.dentries c = some d) (hi : s.inodes d.dInode = some i) :
    rename lw a oldName b newName s =
      moveNode lw i.iMode (joinName oldName o.dPath) (joinName newName n.dPath)
        (renamed s a b c oldName newName (joinName oldName o.dPath)
          (joinName newName n.dPath)) := by
  have hd' : (s.removeChild a oldName).dentries c = some d :=
    (Function.update_of_ne hca _ _).trans hd
  have hi' : (s.removeChild a oldName).inodes d.dInode = some i := hi
  have hold : cwdAndName oldName o.dPath (s.removeChild a oldName) =
      .ok (joinName oldName o.dPath) (s.removeChild a oldName) := by
    unfold cwdAndName
    rw [if_neg hslash]
    rfl
  have hmod : (modify fun s => s.removeChild a oldName : Fs δ Unit) s =
    .ok ⟨⟩ (s.removeChild a oldName) := rfl
  unfold rename
  rw [bind_ok (dentry_eq hp.oldEntry),if_pos hp.oldKind,if_neg hab,
    bind_ok (dentry_eq hp.newEntry),bind_ok (cwdAndName_eq hname n.dPath),hfree]
  dsimp only
  rw [hchild,bind_ok (rfl : unwrap (some c) s = .ok c s),bind_ok hmod,
    if_neg (by rintro (h | h); exacts [hca h,hcb h]),bind_ok (dentry_eq hd'),
    bind_ok (inodeMeta_eq hi'),bind_ok hold]
  rfl

theorem Parents.paths_ne (hab : a ≠ b) : components old ≠ components new := by
  intro heq
  have hplace := hp.oldPlace
  rw [components_parentPath_dropLast,heq,← components_parentPath_dropLast] at hplace
  exact hab (hplace.unique hp.newPlace)

theorem Parents.oldPath_eq : joinName (dentryName old) o.dPath = absolute (components old) := by
  rw [hp.inv.path_of_at hp.oldPlace hp.oldEntry (by rw [hp.oldKind]; exact ext4_ne_device),
    joinName_absolute (hp.inv.validNames_of_at hp.oldPlace),← (exists_last hp.oldName).1]

theorem Parents.newPath_eq : joinName (dentryName new) n.dPath = absolute (components new) := by
  rw [hp.inv.path_of_at hp.newPlace hp.newEntry hp.newKind,
    joinName_absolute (hp.inv.validNames_of_at hp.newPlace),← (exists_last hp.newName).1]

theorem Parents.ordinary {oldName : Str} (hedge : childOf s a oldName = some c)
    (hd : s.dentries c = some d) : d.kind ≠ .device := by
  intro hk
  obtain ⟨o',d',ho',hd',-,-,-,-,hsimple,-⟩ := hp.inv.edge _ _ _ hedge
  cases hp.oldEntry.symm.trans ho'
  cases hd.symm.trans hd'
  rw [hp.oldKind] at hsimple
  cases hsimple hk

theorem renamed_steps (hab : a ≠ b) (hfree : childOf s b (dentryName new) = none)
    (hedge : childOf s a (dentryName old) = some c) (hcb : c ≠ b) (hleaf : Leaf s c)
    (hd : s.dentries c = some d) :
    ∃ sd, Detaching s a (dentryName old) c o d (absolute (components old)) sd ∧
      Attachable dev (looseTop s) sd b (dentryName new) c n
        (moved d (dentryName new) (absolute (components new)) b) ∧
      Attaching sd b (dentryName new) c n (moved d (dentryName new) (absolute (components new)) b)
        (renamed s a b c (dentryName old) (dentryName new) (absolute (components old))
          (absolute (components new))) := by
  have hca : c ≠ a := by
    rintro rfl
    rw [hleaf] at hedge
    cases hedge
  obtain ⟨o',d',ho',hd',-,-,-,-,-,hpath⟩ := hp.inv.edge _ _ _ hedge
  cases hp.oldEntry.symm.trans ho'
  cases hd.symm.trans hd'
  have hdetach := taken_detaching hedge hp.oldEntry hd hca hpath
  have hd₁ := (Function.update_of_ne hca _ _ :
    (s.removeChild a (dentryName old)).dentries c = _).trans
    hd
  have ok := attachable_moved hp.inv hdetach hleaf hp.oldKind hp.newEntry hab hcb hp.newPlace
    hp.newKind (exists_last hp.newName).2 hfree hd₁
  have inv₁ := hdetach.treeInv hleaf (fun hk => (hp.ordinary hedge hd hk).elim) hp.inv
  have hattach := given_attaching inv₁ ok.parent hd₁ hcb (dentryName new)
    (joinName (dentryName new) n.dPath)
  rw [hp.oldPath_eq] at hdetach ok hattach
  rw [hp.newPath_eq] at ok hattach
  exact ⟨_,hdetach,ok,hattach⟩

end

theorem renamed_right (hlw : Exact lw) (hp : Parents dev s old new a b o n ia ib) (hab : a ≠ b)
    (hfree : childOf s b (dentryName new) = none)
    (hedge : childOf s a (dentryName old) = some c) (hcb : c ≠ b) (hleaf : Leaf s c)
    (hd : s.dentries c = some d) {disk : δ}
    (hload : loadable lw disk (absolute (components old)) = false) :
    RenameRight lw old new d.dInode (.ok () { renamed s a b c (dentryName old) (dentryName new)
      (absolute (components old)) (absolute (components new)) with disk := disk }) := by
  obtain ⟨sd,hdetach,ok,hattach⟩ := renamed_steps hp hab hfree hedge hcb hleaf hd
  generalize renamed s a b c (dentryName old) (dentryName new) (absolute (components old))
    (absolute (components new)) = sm at hattach ⊢
  have inv₁ := hdetach.treeInv hleaf (fun hk => (hp.ordinary hedge hd hk).elim) hp.inv
  have inv₂ := hattach.treeInv ok inv₁
  have hsame : SameTree sm { sm with disk := disk } := ⟨rfl,rfl,rfl,rfl⟩
  have inv₃ := hsame.treeInv inv₂
  have hrooted := congrArg TreeTop.root (looseTop_eq inv₃)
  obtain ⟨hnewPath,hnewValid⟩ := exists_last hp.newName
  obtain ⟨holdPath,-⟩ := exists_last hp.oldName
  have hne := hp.paths_ne hab
  have hac : a ≠ c := (hdetach.apart hleaf).symm
  have hcached : ∀ p, sm.cache.lookup p =
    if p = absolute (components new) then some c else sd.cache.lookup p := hattach.cache
  refine ⟨?_,fun _ => ?_⟩
  · have hat : At (looseTop s) sm (components new) c := by
      rw [hnewPath]
      refine (hattach.at_parent ok (hdetach.at_kept hleaf hp.newPlace hcb.symm)).child ?_
      rw [hattach.childOf_eq ok,if_pos ⟨rfl,rfl⟩]
    obtain ⟨cache,hfound⟩ := pathToDentry_found lw inv₃ hrooted
      (hsame.at.mpr hat) fun x hx => by
        have hnormal := normal_of_cached inv₂ hx
        rw [hcached,if_pos hnormal] at hx
        exact (Option.some.inj hx).symm
    exact ⟨c,_,_,hfound,hattach.child,rfl⟩
  · have hata : At (looseTop s) sm (components (parentPath old)) a :=
      hattach.at_kept ok (hdetach.at_kept hleaf hp.oldPlace hac) fun hedge' => by
        rw [hdetach.childOf_eq hleaf,if_neg fun h => hab h.1.symm,hfree] at hedge'
        cases hedge'
    have hentry : sm.dentries a = some { o with dChild := o.dChild.erase (dentryName old) } := by
      rw [hattach.others a hab hac,hdetach.parent]
    have hnone : childOf sm a (dentryName old) = none := by
      rw [childOf_eq hentry,AList.lookup_erase]
    have hcache : sm.cache.lookup old = none := by
      by_contra hsome
      obtain ⟨x,hx⟩ := Option.ne_none_iff_exists'.mp hsome
      have hnormal := normal_of_cached inv₂ hx
      rw [hcached,if_neg,hdetach.cache,if_pos hnormal] at hx
      · cases hx
      · intro heq
        refine hne ?_
        rw [heq]
        exact components_absolute fun name hname => validName_of_mem_components hname
    obtain ⟨r,t,hlook,hsome⟩ := pathToDentry_loads hlw inv₃ hrooted (hsame.at.mpr hata) holdPath
      hentry hnone hcache
    cases r with
    | none => exact ⟨t,hlook⟩
    | some e =>
      have hyes := (hsome.mp rfl).2
      rw [show joinName (dentryName old) o.dPath = _ from hp.oldPath_eq] at hyes
      exact absurd (hload.symm.trans hyes) (by decide)

end Moving

theorem sysRenameat2_eq (hold : pathToDentry lw (parentPath old) s = .ok (some a) s₁)
    (hnew : pathToDentry lw (parentPath new) s₁ = .ok (some b) s₂)
    (hp : Parents dev s₂ old new a b o n ia ib) :
    sysRenameat2 lw old new s =
      if o.dInode = n.dInode then .ok () s₂
      else if ia.iMode ≠ .Directory then
        if ia.iMode = .Regular then .error (.errno .EISDIR) s₂ else .error (.panic .todo) s₂
      else rename lw a (dentryName old) b (dentryName new) s₂ := by
  unfold sysRenameat2
  rw [bind_ok hold,bind_ok (rfl : okOr .ENOENT (some a) s₁ = .ok a s₁),bind_ok hnew,
    bind_ok (rfl : okOr .ENOENT (some b) s₂ = .ok b s₂),bind_ok (dentry_eq hp.oldEntry),
    bind_ok (dentry_eq hp.newEntry)]
  split
  · rfl
  · rw [bind_ok (inodeMeta_eq hp.oldInode),bind_ok (inodeMeta_eq hp.newInode),hp.newMode]
    cases ia.iMode <;> rfl

section

variable (hp : Parents dev s old new a b o n ia ib)
include hp

theorem overlapping_right {e : ℕ} (he : childOf s b (dentryName new) = some e) :
    RenameRight lw old new ino (overlapping a b e s) ↔ e ≠ a ∧ e ≠ b ∧ FullDirectory s e := by
  obtain ⟨_,d,_,hd,_⟩ := hp.inv.edge _ _ _ he
  obtain ⟨i,hi⟩ := hp.inodes e d hd
  have hfull : FullDirectory s e ↔ i.iMode = .Directory ∧ d.dChild.entries ≠ [] := by
    constructor
    · rintro ⟨d',i',hd',hi',hmode,hne⟩
      cases hd.symm.trans hd'
      cases hi.symm.trans hi'
      exact ⟨hmode,hne⟩
    · rintro ⟨hmode,hne⟩
      exact ⟨d,i,hd,hi,hmode,hne⟩
  rw [hfull]
  unfold overlapping
  split_ifs with hparent
  · refine ⟨fun h => h.elim,fun ⟨hea,heb,_⟩ => ?_⟩
    rcases hparent with h | h
    · exact (hea h).elim
    · exact (heb h).elim
  · rw [not_or] at hparent
    rw [bind_ok (dentry_eq hd),bind_ok (inodeMeta_eq hi)]
    split
    · rename_i hclash
      refine ⟨fun h => h.elim,fun ⟨_,_,hmode,hne⟩ => ?_⟩
      rcases hclash with h | ⟨-,h⟩
      · rw [h] at hmode
        cases hmode
      · exact hne (List.isEmpty_iff.mp h)
    · rename_i hclash
      split_ifs with hmode
      · refine ⟨fun _ => ⟨hparent.1,hparent.2,hmode,fun hempty => hclash ?_⟩,fun _ => trivial⟩
        exact .inr ⟨hmode,List.isEmpty_iff.mpr hempty⟩
      · exact ⟨fun h => h.elim,fun ⟨_,_,h,_⟩ => (hmode h).elim⟩

theorem rename_taken {e : ℕ} (hab : a ≠ b) (he : childOf s b (dentryName new) = some e) :
    rename lw a (dentryName old) b (dentryName new) s = overlapping a b e s := by
  obtain ⟨-,hvalid⟩ := exists_last hp.newName
  have hstop := overlapping_holds hp.inv a b e
  rw [childOf_eq hp.newEntry] at he
  unfold rename
  rw [bind_ok (dentry_eq hp.oldEntry),if_pos hp.oldKind,if_neg hab,
    bind_ok (dentry_eq hp.newEntry),bind_ok (cwdAndName_eq hvalid n.dPath),he]
  cases hover : overlapping a b e s with
  | ok u t => exact (hstop.of_ok hover).elim
  | error err t => exact bind_error hover

theorem rename_gone (hab : a ≠ b) (hfree : childOf s b (dentryName new) = none)
    (hgone : childOf s a (dentryName old) = none) :
    rename lw a (dentryName old) b (dentryName new) s = .error (.panic .unwrapNone) s := by
  obtain ⟨-,hvalid⟩ := exists_last hp.newName
  rw [childOf_eq hp.newEntry] at hfree
  rw [childOf_eq hp.oldEntry] at hgone
  unfold rename
  rw [bind_ok (dentry_eq hp.oldEntry),if_pos hp.oldKind,if_neg hab,
    bind_ok (dentry_eq hp.newEntry),bind_ok (cwdAndName_eq hvalid n.dPath),hfree,hgone]
  rfl

end

theorem rename_right (hlw : Exact lw) (hp : Parents dev s old new a b o n ia ib)
    (hfile : OldFile lw s old a ino) (hinos : o.dInode ≠ n.dInode) :
    RenameRight lw old new ino (rename lw a (dentryName old) b (dentryName new) s) ↔
      match childOf s b (dentryName new) with
      | some e => e ≠ a ∧ e ≠ b ∧ FullDirectory s e
      | none => (childOf s a (dentryName old)).isSome := by
  have hab : a ≠ b := by
    rintro rfl
    cases hp.oldEntry.symm.trans hp.newEntry
    exact hinos rfl
  cases hnew : childOf s b (dentryName new) with
  | some e =>
    rw [rename_taken hp hab hnew]
    exact overlapping_right hp hnew
  | none =>
    cases hold : childOf s a (dentryName old) with
    | none =>
      rw [rename_gone hp hab hnew hold]
      exact ⟨fun h => h.elim,fun h => (Bool.false_ne_true h).elim⟩
    | some c =>
      obtain ⟨d,i,hd,hi,hmode,hleaf,rfl⟩ := hfile.file c hold
      have hca : c ≠ a := by
        rintro rfl
        rw [hleaf] at hold
        cases hold
      have hcb : c ≠ b := by
        rintro rfl
        cases hd.symm.trans hp.newEntry
        cases hi.symm.trans hp.newInode
        rw [hp.newMode] at hmode
        cases hmode
      rw [rename_eq hp hab (exists_last hp.newName).2
        ((childOf_eq hp.newEntry _).symm.trans hnew) ((childOf_eq hp.oldEntry _).symm.trans hold)
        (exists_last hp.oldName).2.noSlash hca hcb hd hi,hp.oldPath_eq,hp.newPath_eq,hmode]
      refine ⟨fun _ => rfl,fun _ => ?_⟩
      unfold moveNode onDisk
      dsimp only
      split
      · rename_i disk hdisk
        refine renamed_right hlw hp hab hnew hold hcb hleaf hd (hlw.mvfile _ _ _ _ ?_ hdisk)
        intro heq
        refine hp.paths_ne hab ?_
        have hcomp := congrArg components heq
        rwa [components_absolute fun _ h => validName_of_mem_components h,
          components_absolute fun _ h => validName_of_mem_components h] at hcomp
      · trivial

/-- A disk with the directory `/a` and the file `/f`, mounted. -/
def mountTwo : Fs ListDisk Unit := mount listDisk 2 ['/'] true .EXT4

def twoEntries : Vfs ListDisk := Vfs.cold [(['/', 'a'], .dir), (['/', 'f'], .regFile)]

def TwoShape (s : Vfs ListDisk) : Prop :=
  rootOf s = some 0 ∧ childOf s 0 ['a'] = some 1 ∧ childOf s 0 ['f'] = some 2 ∧
  (s.dentries 0).map (fun d => (d.kind, d.dInode)) = some (.ext4, 0) ∧
  (s.dentries 1).map (fun d => (d.kind, d.dInode, d.dChild.entries.isEmpty)) =
    some (.ext4, 1, true) ∧
  (s.dentries 2).map (fun d => (d.kind, d.dInode, d.dChild.entries.isEmpty)) =
    some (.ext4, 2, true) ∧
  s.inodes 0 = some ⟨.Directory, 1, 0⟩ ∧ s.inodes 1 = some ⟨.Directory, 1, 0⟩ ∧
  s.inodes 2 = some ⟨.Regular, 1, 0⟩ ∧ s.nextDentry = 3 ∧ s.cache.lookup ['/'] = some 0 ∧
  s.cache.lookup ['/', 'a'] = some 1 ∧ s.cache.lookup ['/', 'f'] = some 2

instance decidableTwoShape (s : Vfs ListDisk) : Decidable (TwoShape s) :=
  inferInstanceAs (Decidable (_ ∧ _ ∧ _ ∧ _ ∧ _ ∧ _ ∧ _ ∧ _ ∧ _ ∧ _ ∧ _ ∧ _ ∧ _))

theorem leaf_of_isEmpty (hd : s.dentries c = some d) (h : d.dChild.entries.isEmpty = true) :
    Leaf s c := by
  intro name
  rw [childOf_eq hd]
  simp [AList.lookup,List.isEmpty_iff.mp h]

theorem TwoShape.works {s : Vfs ListDisk} (h : TwoShape s) (inv : Stands False s) :
    ∃ o n, Parents False s ['/', 'f'] ['/', 'a', '/', 'g'] 0 1 o n ⟨.Directory, 1, 0⟩
        ⟨.Directory, 1, 0⟩ ∧ OldFile listDisk s ['/', 'f'] 0 2 ∧
      Works s ['/', 'f'] ['/', 'a', '/', 'g'] 0 1 o n ⟨.Directory, 1, 0⟩ := by
  obtain ⟨hroot,ha,hf,h0,h1,h2,hi0,hi1,hi2,hnext,-,-,hcf⟩ := h
  obtain ⟨o,ho,hos⟩ := Option.map_eq_some_iff.mp h0
  obtain ⟨n,hn,hns⟩ := Option.map_eq_some_iff.mp h1
  obtain ⟨d,hd,hds⟩ := Option.map_eq_some_iff.mp h2
  simp only [Prod.mk.injEq] at hos hns hds
  obtain ⟨hok,hoi⟩ := hos
  obtain ⟨hnk,hni,hne⟩ := hns
  obtain ⟨hdk,hdi,hde⟩ := hds
  have hplace : At (looseTop s) s [] 0 := ⟨0,hroot,.root⟩
  have hpo : components (parentPath ['/','f']) = [] := by decide
  have hpn : components (parentPath ['/','a','/','g']) = [] ++ [['a']] := by decide
  refine ⟨o,n,⟨loose_of_stands inv,hpo ▸ hplace,hpn ▸ hplace.child ha,ho,hn,hok,?_,by rw [hoi,hi0],
    by rw [hni,hi1],rfl,fun id e he => ?_,by decide,by decide⟩,⟨?_,fun c hc => ?_,?_⟩,?_⟩
  · rw [hnk]
    exact ext4_ne_device
  · have hlt : id < 3 := by
      by_contra hge
      rw [inv.fresh id (by omega)] at he
      cases he
    obtain rfl | rfl | rfl : id = 0 ∨ id = 1 ∨ id = 2 := by omega
    · exact ⟨_,by rw [← Option.some.inj (ho.symm.trans he),hoi,hi0]⟩
    · exact ⟨_,by rw [← Option.some.inj (hn.symm.trans he),hni,hi1]⟩
    · exact ⟨_,by rw [← Option.some.inj (hd.symm.trans he),hdi,hi2]⟩
  · exact ⟨2,s,d,pathToDentry_cached listDisk hcf,hd,hdi⟩
  · rw [show dentryName ['/','f'] = ['f'] by decide,hf,Option.some.injEq] at hc
    subst hc
    exact ⟨d,_,hd,by rw [hdi,hi2],rfl,leaf_of_isEmpty hd hde,hdi⟩
  · exact fun id e he hk => (inv.devices id e he hk).elim
  · unfold Works
    rw [if_neg (by rw [hoi,hni]; decide),show dentryName ['/','a','/','g'] = ['g'] by decide,
      leaf_of_isEmpty hn hne,show dentryName ['/','f'] = ['f'] by decide,hf]
    exact .inr ⟨rfl,rfl⟩

end DuckOs.RenamedPaths
