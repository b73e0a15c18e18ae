import DuckOs.DirectoryReads
import DuckOs.LookupEffects

namespace DuckOs.FileCreation
open ExecutionRules NamedTrees PathModel PermissionFlags VfsModel VfsTrees VfsLookups VfsCalls
  VfsMounts VfsResolution LookupEffects FdTables DirectoryReads Function
open DescriptorTables (onTable_eq lowest insertGetFd_some insertGetFd_none lookup_taken taken)
open Ext4FileModel (OpenFlags)

variable {δ : Type} {dev : Prop} {top : TreeTop} {s s' s₁ s₂ : Vfs δ} {q c fa : ℕ}
  {name a path : Str} {dq dc d : Dentry} {e : Fault} {mode : InodeMode} {lw : Lwext4 δ}
  {i : InodeMeta}

section Statement

variable (lw : Lwext4 δ)

def Unchanged (s s' : Vfs δ) : Prop :=
  s'.dentries = s.dentries ∧ ∀ path, s'.cache.lookup path = s.cache.lookup path

def IsDirectory (s : Vfs δ) (e : ℕ) : Prop :=
  ∃ d i, s.dentries e = some d ∧ s.inodes d.dInode = some i ∧ i.iMode = .Directory

def DirectoryAt (s : Vfs δ) (path : Str) : Prop :=
  ∃ e t, pathToDentry lw path s = .ok (some e) t ∧ IsDirectory t e

/-- What `mkdirat` should do. -/
def MkdirRight (path : Str) (s : Vfs δ) : Prop :=
  match sysMkdirat lw path s with
  | .ok _ s' => DirectoryAt lw s' path ∧ KeepsPaths lw s s' ∧ DirectoryAt lw s (parentPath path)
  | .error (.errno _) s' => Unchanged s s'
  | .error (.panic _) _ => False

/-- What `openat` should do, for the process `p`. -/
def OpenRight (p : ℕ) (path : Str) (flags : OpenFlags) (w : World δ) : Prop :=
  match sysOpen lw p path flags w with
  | .ok fd w' => (∃ file, fileOf w' p fd = some file ∧ LeadsTo lw w'.vfs path file.fDentry ∧
      ¬ IsDirectory w'.vfs file.fDentry) ∧
    KeepsPaths lw w.vfs w'.vfs ∧ DirectoryAt lw w.vfs (parentPath path)
  | .error (.errno _) w' => Unchanged w.vfs w'.vfs
  | .error (.panic _) _ => False

/-- The entry that the cache or else the tree has for the path. -/
def resolved (s : Vfs δ) (path : Str) : Option ℕ :=
  match s.cache.lookup path with
  | some c => some c
  | none => (rootOf s).bind fun r => walk (childOf s) r (components path)

/-- The entries on the way are in the cache under their own paths, and the disk has nothing where
the way ends. -/
structure Settled (s : Vfs δ) (path : Str) : Prop where
  root : rootOf s ≠ none
  known : ∀ l x d, l <+: components path → l ≠ [] → At (looseTop s) s l x →
    s.dentries x = some d → s.cache.lookup d.dPath = some x
  unseen : ∀ l a q d, l ++ [a] <+: components path → At (looseTop s) s l q →
    s.dentries q = some d → childOf s q a = none → d.kind = .ext4 →
    ∀ type, lw.checkInodeExist s.disk (joinName a d.dPath) type = false

def nodeOnDisk (mode : InodeMode) (path : Str) : EStateM VirtMemoryModel.Errno δ Unit :=
  if mode = .Directory then lw.dirCreate path else lw.fileOpen path true

/-- The entry is not a device, and on a disk the library makes the node. -/
def Accepts (s : Vfs δ) (fa : ℕ) (name : Str) (mode : InodeMode) : Prop :=
  ∃ d, s.dentries fa = some d ∧ d.kind ≠ .device ∧
    (d.kind = .ext4 → succeeds (nodeOnDisk lw mode (joinName name d.dPath)) s.disk = true)

/-- The lookups that lead from `s` to `t` leave every path alone, and no path of before is the one
of the new entry. -/
def Undisturbed (s t : Vfs δ) (fa : ℕ) (name : Str) : Prop :=
  KeepsPaths lw s t ∧ ∀ d e, t.dentries fa = some d → s.dentries e ≠ none →
    ¬ LeadsTo lw s (joinName name d.dPath) e

def MkdirFits (path : Str) (s : Vfs δ) : Prop :=
  match resolved s path with
  | some _ => True
  | none => ∃ fa, resolved s (parentPath path) = some fa ∧
    (IsDirectory s fa ∧ Accepts lw s fa (dentryName path) .Directory →
      s.cache.lookup (absolute (components path)) = none)

def Refuses (s : Vfs δ) (c : ℕ) (flags : OpenFlags) : Prop :=
  contains flags OpenFlags.O_DIRECTORY ∧ ¬ IsDirectory s c ∨ contains flags OpenFlags.O_EXCL

def Truncates (s : Vfs δ) (c : ℕ) (flags : OpenFlags) : Prop :=
  ∃ d i, s.dentries c = some d ∧ s.inodes d.dInode = some i ∧ d.kind ≠ .device ∧
    i.iMode = .Regular ∧ flags.isWritable ∧ contains flags OpenFlags.O_TRUNC

/-- The last argument says whether the process has a free descriptor. -/
def OpenFits (path : Str) (flags : OpenFlags) (s : Vfs δ) (free : Prop) : Prop :=
  match resolved s path with
  | some c => Refuses s c flags ∨ ¬ Truncates s c flags ∧ (free → ¬ IsDirectory s c ∧
      ∃ fa, resolved s (parentPath path) = some fa ∧ IsDirectory s fa)
  | none => ∃ fa, resolved s (parentPath path) = some fa ∧
    (Accepts lw s fa (dentryName path) .Regular →
      contains flags OpenFlags.O_TRUNC = false ∧ free ∧ IsDirectory s fa ∧
      s.cache.lookup (absolute (components path)) = none)

end Statement

section Lookups

variable {cache : StrMap ℕ}

theorem lookUp_unseen (hq : s.dentries q = some dq) (hname : ValidName a)
    (hnone : dq.dChild.lookup a = none) (hunseen : dq.kind = .ext4 → ∀ type,
      lw.checkInodeExist s.disk (joinName a dq.dPath) type = false) :
    lookUp lw q a s = .ok none s := by
  unfold lookUp
  rw [bind_ok (dentry_eq hq)]
  cases hk : dq.kind with
  | device => rfl
  | simple =>
    dsimp only
    rw [hnone]
    rfl
  | ext4 =>
    have hload : loadInode lw (joinName a dq.dPath) s = .ok none s := by
      unfold loadInode
      rw [get_bind]
      simp only [hunseen hk]
      rfl
    rw [hnone]
    dsimp only
    rw [bind_ok (cwdAndName_eq hname dq.dPath),bind_ok hload]
    rfl

section

variable (inv : TreeInv dev (looseTop s) s)
include inv

theorem walkPath_settled (hs : Settled lw s path) : ∀ (names l : List Str) (q : ℕ)
    (cache : StrMap ℕ), components path = l ++ names → At (looseTop s) s l q →
    (∀ p, cache.lookup p = s.cache.lookup p) →
    ∃ cache', (∀ p, cache'.lookup p = s.cache.lookup p) ∧
      walkPath lw q names { s with cache := cache } =
        .ok (walk (childOf s) q names) { s with cache := cache' } := by
  intro names
  induction names with
  | nil => exact fun l q cache _ _ h => ⟨cache,h,rfl⟩
  | cons a rest ih =>
    intro l q cache hp hat h
    obtain ⟨dq,hq⟩ := inv.exists_of_at hat
    have hdq : dentry q { s with cache := cache } = .ok dq { s with cache := cache } := dentry_eq hq
    have hpre : l ++ [a] <+: components path := ⟨rest,by simp [hp]⟩
    rw [walkPath,bind_ok hdq,← childOf_eq hq,walk]
    cases hc : childOf s q a with
    | some c =>
      obtain ⟨_,dc,_,hdc,-⟩ := inv.edge q a c hc
      have hdc' : dentry c { s with cache := cache } = .ok dc { s with cache := cache } :=
        dentry_eq hdc
      have hsame : ∀ p, (cache.insert dc.dPath c).lookup p = s.cache.lookup p := by
        intro p
        rw [lookup_inserted]
        split_ifs with hpath
        · rw [hpath,hs.known _ c dc hpre (by simp) (hat.child hc) hdc]
        · exact h p
      obtain ⟨cache',h',hwalk⟩ := ih (l ++ [a]) c _ (by simp [hp]) (hat.child hc) hsame
      refine ⟨cache',h',?_⟩
      dsimp only
      rw [bind_ok hdc']
      exact hwalk
    | none =>
      have hname : ValidName a := validName_of_mem_components (p := path) (by simp [hp])
      have hlook : lookUp lw q a { s with cache := cache } = .ok none { s with cache := cache } :=
        lookUp_unseen hq hname ((childOf_eq hq a).symm.trans hc)
          (hs.unseen l a q dq hpre hat hq hc)
      refine ⟨cache,h,?_⟩
      dsimp only
      rw [bind_ok hlook]
      rfl

theorem lookup_settled (hs : Settled lw s path) (cache : StrMap ℕ)
    (h : ∀ p, cache.lookup p = s.cache.lookup p) :
    ∃ cache', (∀ p, cache'.lookup p = s.cache.lookup p) ∧
      pathToDentry lw path { s with cache := cache } =
        .ok (resolved s path) { s with cache := cache' } := by
  unfold pathToDentry resolved
  rw [get_bind,h path]
  cases s.cache.lookup path with
  | some c => exact ⟨cache,h,rfl⟩
  | none =>
    obtain ⟨r,hr⟩ := Option.ne_none_iff_exists'.mp hs.root
    have hroot : rootDentry { s with cache := cache } = .ok r { s with cache := cache } :=
      rootDentry_eq hr
    dsimp only
    rw [bind_ok hroot,hr]
    exact walkPath_settled inv hs _ [] r cache rfl ⟨r,hr,.root⟩ h

theorem resolved_entry (h : resolved s path = some c) : ∃ d, s.dentries c = some d ∧
    (d.kind ≠ .device → At (looseTop s) s (components path) c) := by
  unfold resolved at h
  cases hcache : s.cache.lookup path with
  | some x =>
    rw [hcache] at h
    cases h
    obtain ⟨d,hd,-⟩ := inv.cached path c hcache
    exact ⟨d,hd,inv.at_of_cached hcache hd⟩
  | none =>
    rw [hcache] at h
    obtain ⟨r,hr,hwalk⟩ := Option.bind_eq_some_iff.mp h
    have hat : At (looseTop s) s (components path) c := ⟨r,hr,linked_of_walk hwalk⟩
    obtain ⟨d,hd⟩ := inv.exists_of_at hat
    exact ⟨d,hd,fun _ => hat⟩

theorem leadsTo_iff_resolved {e : ℕ} (he : s.dentries e ≠ none) :
    LeadsTo lw s path e ↔ resolved s path = some e := by
  obtain ⟨d,hd⟩ := Option.ne_none_iff_exists'.mp he
  rw [leadsTo_iff inv rfl not_false hd,resolved]
  cases s.cache.lookup path with
  | some x => simp
  | none => simp [At,looseTop,Option.bind_eq_some_iff,linked_iff_walk]

end

theorem resolved_none (hs : Settled lw s path) (h : resolved s path = none) :
    components path ≠ [] ∧ s.cache.lookup path = none ∧
      ∀ e, ¬ At (looseTop s) s (components path) e := by
  unfold resolved at h
  obtain ⟨r,hr⟩ := Option.ne_none_iff_exists'.mp hs.root
  cases hcache : s.cache.lookup path with
  | some x =>
    rw [hcache] at h
    cases h
  | none =>
    rw [hcache,hr] at h
    refine ⟨fun hnil => ?_,rfl,?_⟩
    · rw [hnil] at h
      cases h
    · rintro e ⟨r',hr',hl⟩
      cases hr.symm.trans hr'
      cases h.symm.trans hl.walk_eq

theorem Settled.parent (hs : Settled lw s path) : Settled lw s (parentPath path) := by
  have hpre : components (parentPath path) <+: components path := by
    rw [components_parentPath_dropLast]
    exact List.dropLast_prefix _
  exact ⟨hs.root,fun l x d hl => hs.known l x d (hl.trans hpre),
    fun l a q d hl => hs.unseen l a q d (hl.trans hpre)⟩

/-- The lookups of a path and then of its parent change nothing that is seen of the cache. -/
theorem lookups_settled (u : Usable dev s) (hs : Settled lw s path) :
    ∃ cache cache', (∀ p, cache.lookup p = s.cache.lookup p) ∧
      (∀ p, cache'.lookup p = s.cache.lookup p) ∧
      pathToDentry lw path s = .ok (resolved s path) { s with cache := cache } ∧
      pathToDentry lw (parentPath path) { s with cache := cache } =
        .ok (resolved s (parentPath path)) { s with cache := cache' } := by
  obtain ⟨cache,hcache,h⟩ := lookup_settled u.tree hs s.cache fun _ => rfl
  obtain ⟨cache',hcache',h'⟩ := lookup_settled u.tree hs.parent cache hcache
  exact ⟨cache,cache',hcache,hcache',h,h'⟩

theorem directoryAt_iff (u : Usable dev s) (hs : Settled lw s path) :
    DirectoryAt lw s path ↔ ∃ e, resolved s path = some e ∧ IsDirectory s e := by
  obtain ⟨cache,-,-,-,h,-⟩ := lookups_settled u hs
  unfold DirectoryAt
  rw [h]
  constructor
  · rintro ⟨e,t,ht,hdir⟩
    cases hfound : resolved s path with
    | none =>
      rw [hfound] at ht
      cases ht
    | some e' =>
      rw [hfound] at ht
      cases ht
      exact ⟨e,rfl,hdir⟩
  · rintro ⟨e,he,hdir⟩
    exact ⟨e,{ s with cache := cache },by rw [he],hdir⟩

theorem Usable.withCache (u : Usable dev s) (h : ∀ p, cache.lookup p = s.cache.lookup p) :
    Usable dev { s with cache := cache } :=
  ⟨⟨u.tree.fresh,u.tree.devices,u.tree.paths,u.tree.edge,u.tree.root,u.tree.mounted,u.tree.rooted,
    u.tree.managed,fun p c hp => u.tree.cached p c ((h p).symm.trans hp)⟩,u.inodes,u.devices⟩

theorem keepsPaths_withCache (lw : Lwext4 δ) (u : Usable dev s)
    (h : ∀ p, cache.lookup p = s.cache.lookup p) : KeepsPaths lw s { s with cache := cache } := by
  intro p e he hl
  rw [leadsTo_iff_resolved u.tree he] at hl
  refine (leadsTo_iff_resolved (Usable.withCache u h).tree he).mpr ?_
  unfold resolved at hl ⊢
  rw [h p]
  exact hl

theorem undisturbed_iff (u : Usable dev s) (hs : Settled lw s path)
    (hcache : ∀ p, cache.lookup p = s.cache.lookup p) (hmissing : resolved s path = none)
    (hfa : resolved s (parentPath path) = some fa) (hd : s.dentries fa = some d)
    (hk : d.kind ≠ .device) :
    Undisturbed lw s { s with cache := cache } fa (dentryName path) ↔
      s.cache.lookup (absolute (components path)) = none := by
  obtain ⟨hne,-,habsent⟩ := resolved_none hs hmissing
  obtain ⟨d',hd',hat⟩ := resolved_entry u.tree hfa
  cases hd.symm.trans hd'
  have hpath : joinName (dentryName path) d.dPath = absolute (components path) := by
    rw [u.tree.path_of_at (hat hk) hd hk,joinName_absolute (u.tree.validNames_of_at (hat hk)),
      ← (exists_last hne).1]
  constructor
  · rintro ⟨-,hno⟩
    by_contra hsome
    obtain ⟨e,he⟩ := Option.ne_none_iff_exists'.mp hsome
    obtain ⟨de,hde,-⟩ := u.tree.cached _ e he
    refine hno d e hd (by simp [hde]) ?_
    rw [hpath]
    exact ⟨s,pathToDentry_cached lw he⟩
  · intro hfree
    refine ⟨keepsPaths_withCache lw u hcache,fun d' e hd' he hl => ?_⟩
    cases hd.symm.trans hd'
    rw [hpath,leadsTo_iff_resolved u.tree he,resolved,hfree,
      components_absolute fun _ h => validName_of_mem_components h] at hl
    obtain ⟨r,hr,hwalk⟩ := Option.bind_eq_some_iff.mp hl
    exact habsent e ⟨r,hr,linked_of_walk hwalk⟩

end Lookups

section Making

def Ordinary (mode : InodeMode) : Prop := mode = .Regular ∨ mode = .Directory

theorem makeNode_eq {kind : DentryKind} (hmode : Ordinary mode) (hk : kind ≠ .device) :
    makeNode lw kind path mode s =
      if kind = .ext4 then onDisk (nodeOnDisk lw mode path) s else .ok () s := by
  cases kind with
  | device => exact (hk rfl).elim
  | simple => rcases hmode with rfl | rfl <;> rfl
  | ext4 => rcases hmode with rfl | rfl <;> rfl

theorem onDisk_eq (x : EStateM VirtMemoryModel.Errno δ Unit) (s : Vfs δ) :
    (succeeds x s.disk = true → ∃ disk, onDisk x s = .ok () { s with disk := disk }) ∧
    (succeeds x s.disk ≠ true → ∃ e disk, onDisk x s =
      .error (.errno e) { s with disk := disk }) := by
  unfold VfsResolution.succeeds onDisk
  cases x s.disk with
  | ok _ disk => exact ⟨fun _ => ⟨disk,rfl⟩,fun hno => (hno rfl).elim⟩
  | error e disk => exact ⟨fun hyes => (Bool.false_ne_true hyes).elim,fun _ => ⟨e,disk,rfl⟩⟩

theorem create_accepted (hmode : Ordinary mode) (hq : s.dentries q = some dq)
    (hname : ValidName name) (h : Accepts lw s q name mode) :
    ∃ disk, dq.kind ≠ .device ∧ create lw q name mode s = .ok s.nextDentry
      (created (withInode { s with disk := disk } mode) q dq name s.nextInode) := by
  obtain ⟨d,hd,hk,hdisk⟩ := h
  cases hq.symm.trans hd
  have hmake : ∃ t, makeNode lw dq.kind (joinName name dq.dPath) mode s = .ok () t := by
    rw [makeNode_eq hmode hk]
    split_ifs with hext4
    · obtain ⟨disk,hok⟩ := (onDisk_eq _ s).1 (hdisk hext4)
      exact ⟨_,hok⟩
    · exact ⟨s,rfl⟩
  obtain ⟨t,hmake⟩ := hmake
  have hok : ∃ c s', create lw q name mode s = .ok c s' := by
    unfold create
    rw [bind_ok (dentry_eq hq),if_neg hk,bind_ok (cwdAndName_eq hname dq.dPath),bind_ok hmake]
    exact ⟨_,_,rfl⟩
  obtain ⟨c,s',hcreate⟩ := hok
  obtain ⟨disk,-,rfl,rfl⟩ := (create_creates lw hq hname mode).of_ok hcreate
  exact ⟨disk,hk,hcreate⟩

theorem create_refused (hmode : Ordinary mode) (hq : s.dentries q = some dq)
    (hname : ValidName name) (h : ¬ Accepts lw s q name mode) :
    ∃ e t, create lw q name mode s = .error (.errno e) t ∧ DiskOnly s t := by
  unfold create
  rw [bind_ok (dentry_eq hq)]
  split_ifs with hk
  · exact ⟨_,s,rfl,s.disk,rfl⟩
  · have hext4 : dq.kind = .ext4 := by
      by_contra hne
      exact h ⟨dq,hq,hk,fun hext4 => (hne hext4).elim⟩
    obtain ⟨e,disk,hfail⟩ := (onDisk_eq (nodeOnDisk lw mode (joinName name dq.dPath)) s).2
      fun hyes => h ⟨dq,hq,hk,fun _ => hyes⟩
    have hmake : makeNode lw dq.kind (joinName name dq.dPath) mode s = _ := makeNode_eq hmode hk
    rw [if_pos hext4,hfail] at hmake
    rw [bind_ok (cwdAndName_eq hname dq.dPath)]
    exact ⟨e,_,bind_error hmake,disk,rfl⟩

structure Made (dev : Prop) (lw : Lwext4 δ) (path : Str) (fa : ℕ) (mode : InodeMode)
    (s s₂ s₃ : Vfs δ) : Prop where
  inv : TreeInv dev (looseTop s) s₃
  leads : s₂.cache.lookup path = none → LeadsTo lw s₃ path s₂.nextDentry
  keeps : KeepsPaths lw s s₃ ↔ Undisturbed lw s s₂ fa (dentryName path)
  attached : ∃ t d dc, SameTree s₂ t ∧ s₂.dentries fa = some d ∧
    Attaching t fa (dentryName path) s₂.nextDentry d dc s₃ ∧ dc.dInode = s₂.nextInode ∧
    dc.kind ≠ .device
  inodes : s₃.inodes = (withInode s₂ mode).inodes
  hasInodes : HasInodes s₃

/-- A path that ends in the name of a new child leads to it, through the cache or the tree. -/
theorem leadsTo_attached {t : Vfs δ} {l : List Str} (lw : Lwext4 δ) (inv : TreeInv dev top s')
    (hrooted : rootOf s' = top.root) (ok : Attachable dev top t q name c dq dc)
    (hattach : Attaching t q name c dq dc s') (hat : At top t l q)
    (hp : components path = l ++ [name]) (hcold : t.cache.lookup path = none) :
    LeadsTo lw s' path c := by
  have hcached := hattach.cache path
  split_ifs at hcached with hkey
  · exact ⟨_,pathToDentry_cached lw hcached⟩
  · have hchild := (hattach.at_parent ok hat).child
      ((hattach.childOf_eq ok q _).trans (if_pos ⟨rfl,rfl⟩))
    rw [← hp] at hchild
    obtain ⟨cache,hfound⟩ := pathToDentry_found lw inv hrooted hchild fun x hx => by
      cases (hcached.trans hcold).symm.trans hx
    exact ⟨_,hfound⟩

theorem create_made (u : Usable dev s) (hmode : Ordinary mode)
    (h : pathToDentry lw path s = .ok none s₁)
    (h' : pathToDentry lw (parentPath path) s₁ = .ok (some fa) s₂)
    (haccept : Accepts lw s₂ fa (dentryName path) mode) :
    ∃ s₃, create lw fa (dentryName path) mode s₂ = .ok s₂.nextDentry s₃ ∧
      Made dev lw path fa mode s s₂ s₃ := by
  obtain ⟨hf,u₁,htop⟩ := (u.lookup lw path).of_ok h
  obtain ⟨hf',u₂,htop'⟩ := (u₁.lookup lw (parentPath path)).of_ok h'
  rw [htop] at hf' htop'
  obtain ⟨l,a,d,hp,hname,-,hd,hat,hfree⟩ := found_parent False.elim hf hf'
  obtain rfl := dentryName_append hp
  obtain ⟨disk,hk,hcreate⟩ := create_accepted hmode hd hname haccept
  have hsame : SameTree s₂ (withInode { s₂ with disk := disk } mode) := ⟨rfl,rfl,rfl,rfl⟩
  have invt := hsame.treeInv hf'.inv
  obtain ⟨ok,hattach⟩ := created_attaching invt hd (hsame.at.mpr (hat hk)) hk hname False.elim
    (fun e he => by
      rw [hsame.childOf_eq,hfree] at he
      cases he) s₂.nextInode
  have hrooted : rootOf s₂ = (looseTop s).root := congrArg TreeTop.root htop'
  have inv₃ := hattach.treeInv ok invt
  have hiff : ∀ p e, s.dentries e ≠ none →
      (LeadsTo lw (created (withInode { s₂ with disk := disk } mode) fa d (dentryName path)
        s₂.nextInode) p e ↔ p ≠ joinName (dentryName path) d.dPath ∧ LeadsTo lw s₂ p e) := by
    intro p e he
    obtain ⟨de,he⟩ := Option.ne_none_iff_exists'.mp he
    obtain ⟨ch₁,he₁⟩ := hf.grows.kept e de he
    obtain ⟨ch₂,he₂⟩ := hf'.grows.kept e _ he₁
    rw [leadsTo_attach invt hrooted not_false ok hattach hfree (hf'.inv.fresh _ le_rfl) he₂,
      leadsTo_same hf'.inv hrooted not_false hsame he₂]
  refine ⟨_,hcreate,inv₃,
    fun hcold => leadsTo_attached lw inv₃ hrooted ok hattach (hsame.at.mpr (hat hk)) hp hcold,
    ⟨fun hkeeps => ⟨fun p e he hl => ?_,fun d' e hd' he hl => ?_⟩,
    fun hkeeps p e he hl => ?_⟩,⟨_,d,_,hsame,hd,hattach,rfl,hk⟩,rfl,?_⟩
  · exact ((hiff p e he).mp (hkeeps p e he hl)).2
  · cases hd.symm.trans hd'
    exact ((hiff _ e he).mp (hkeeps _ e he hl)).1 rfl
  · exact (hiff p e he).mpr ⟨fun heq => hkeeps.2 d e hd he (heq ▸ hl),hkeeps.1 p e he hl⟩
  · have hdisk : HasInodes { s₂ with disk := disk } := u₂.inodes
    exact (hdisk.withInode mode).attach hd hattach ⟨rfl,rfl⟩
      ⟨Nat.lt_succ_self _,_,update_self _ _ _⟩

end Making

section Directories

theorem isDirectory_iff_mode : IsDirectory s c ↔ ∃ d, s.dentries c = some d ∧
    (s.inodes d.dInode).map InodeMeta.iMode = some .Directory := by
  simp [IsDirectory]

theorem isDirectory_iff (hd : s.dentries c = some d) (hi : s.inodes d.dInode = some i) :
    IsDirectory s c ↔ i.iMode = .Directory := by
  simp [isDirectory_iff_mode,hd,hi]

theorem sysMkdirat_parent (h : pathToDentry lw path s = .ok none s₁)
    (h' : pathToDentry lw (parentPath path) s₁ = .ok (some fa) s₂)
    (hd : s₂.dentries fa = some d) (hi : s₂.inodes d.dInode = some i) :
    sysMkdirat lw path s = (if i.iMode ≠ .Directory then fail .ENOTDIR
      else do
        let _ ← create lw fa (dentryName path) .Directory
        pure ()) s₂ := by
  unfold sysMkdirat
  rw [bind_ok h]
  dsimp only
  rw [bind_ok h',bind_ok (rfl : unwrap (some fa) s₂ = .ok fa s₂),bind_ok (dentry_eq hd),
    bind_ok (inodeMeta_eq hi)]

theorem isDirectory_kept (e : ℕ) :
    Kept dev top fun s : Vfs δ => HasInodes s ∧ IsDirectory s e := by
  refine ⟨fun _ h => h,fun _ _ h => h,?_⟩
  rintro s q dq l name mode inv hat hq hk hname hplain hfree ⟨hinodes,d,i,hd,hi,hmode⟩
  have hsame : SameTree s (VfsLookups.withInode s mode) := ⟨rfl,rfl,rfl,rfl⟩
  have hgrows := (withEntry_grows (P := fun _ _ => True) (hsame.treeInv inv) (hsame.at.mpr hat) hq
    (by rw [hk]; exact ext4_ne_device) hname hplain hfree trivial s.nextInode).2.1
  obtain ⟨children,hd'⟩ := hgrows.kept e d hd
  refine ⟨hasInodes_kept.entry mode inv hat hq hk hname hplain hfree hinodes,_,i,hd',?_,hmode⟩
  exact (update_of_ne (hinodes e d hd).1.ne _ _).trans hi

theorem Made.kept {t : Vfs δ} {e : ℕ} (h : Made dev lw path fa mode s s₂ t)
    (he : s₂.dentries e ≠ none) : t.dentries e ≠ none := by
  obtain ⟨t',d,dc,hsame,-,hattach,-⟩ := h.attached
  by_cases hec : e = s₂.nextDentry
  · simp [hec,hattach.child]
  · by_cases hefa : e = fa
    · simp [hefa,hattach.parent]
    · rwa [hattach.others e hefa hec,hsame.1]

theorem Made.inode {t : Vfs δ} (h : Made dev lw path fa mode s s₂ t)
    (hino : dc.dInode = s₂.nextInode) : t.inodes dc.dInode = some ⟨mode, 1, 0⟩ := by
  rw [h.inodes,hino]
  exact update_self _ _ _

theorem Made.directoryAt {t : Vfs δ} (h : Made dev lw path fa .Directory s s₂ t)
    (hcold : s₂.cache.lookup path = none) : DirectoryAt lw t path := by
  obtain ⟨u,hu⟩ := h.leads hcold
  obtain ⟨_,_,dc,-,-,hattach,hino,-⟩ := h.attached
  have hdir : IsDirectory t s₂.nextDentry := ⟨dc,_,hattach.child,h.inode hino,rfl⟩
  exact ⟨_,u,hu,((pathToDentry_keeps lw (isDirectory_kept _) h.inv False.elim
    ⟨h.hasInodes,hdir⟩).of_ok hu).2.2⟩

theorem mkdir_right (u : Usable dev s) (hs : Settled lw s path) :
    MkdirRight lw path s ↔ MkdirFits lw path s := by
  obtain ⟨cache,cache',hcache,hcache',h,h'⟩ := lookups_settled u hs
  unfold MkdirRight MkdirFits
  cases hfound : resolved s path with
  | some c =>
    rw [hfound] at h
    have hcall : sysMkdirat lw path s = .error (.errno .EEXIST) _ := bind_ok h
    rw [hcall]
    exact iff_of_true ⟨rfl,hcache⟩ trivial
  | none =>
    rw [hfound] at h
    cases hfa : resolved s (parentPath path) with
    | none =>
      rw [hfa] at h'
      have hcall : sysMkdirat lw path s = .error (.panic .unwrapNone) _ :=
        (bind_ok h).trans (bind_ok h')
      rw [hcall]
      exact iff_of_false id fun ⟨_,hno,_⟩ => Option.some_ne_none _ hno.symm
    | some fa =>
      rw [hfa] at h'
      obtain ⟨d,hd,-⟩ := resolved_entry u.tree hfa
      obtain ⟨i,hi⟩ := u.entry hd
      rw [sysMkdirat_parent h h' hd hi]
      simp only [Option.some.injEq,exists_eq_left',isDirectory_iff hd hi]
      by_cases hdir : i.iMode = .Directory
      · rw [if_neg (not_not.mpr hdir)]
        by_cases haccept : Accepts lw s fa (dentryName path) .Directory
        · obtain ⟨s₃,hcreate,hmade⟩ := create_made u (.inr rfl) h h' haccept
          obtain ⟨d',hd',hk,-⟩ := id haccept
          cases hd.symm.trans hd'
          rw [bind_ok hcreate]
          simp only [hdir,haccept,and_self,true_imp_iff]
          rw [← undisturbed_iff u hs hcache' hfound hfa hd hk,← hmade.keeps]
          refine ⟨fun hright => hright.2.1,fun hkeeps =>
            ⟨hmade.directoryAt ((hcache' path).trans (resolved_none hs hfound).2.1),hkeeps,?_⟩⟩
          exact (directoryAt_iff u hs.parent).mpr ⟨fa,hfa,d,i,hd,hi,hdir⟩
        · obtain ⟨x,t,hcreate,disk,rfl⟩ := create_refused (s := { s with cache := cache' })
            (.inr rfl) hd (exists_last (resolved_none hs hfound).1).2 haccept
          rw [bind_error hcreate]
          exact iff_of_true ⟨rfl,hcache'⟩ fun hand => (haccept hand.2).elim
      · rw [if_pos hdir]
        exact iff_of_true ⟨rfl,hcache'⟩ fun hand => (hdir hand.1).elim

end Directories

section Opening

variable {flags : OpenFlags}

/-- The flags that a file is opened with. -/
def opened (mode : InodeMode) (flags : OpenFlags) : OpenFlags :=
  if mode = .Regular ∧ flags.isWritable then flags else flags &&& ~~~OpenFlags.O_TRUNC

theorem contains_opened (mode : InodeMode) {other : OpenFlags}
    (h : ~~~OpenFlags.O_TRUNC &&& other = other) :
    contains (opened mode flags) other = contains flags other := by
  unfold opened
  split
  · rfl
  · rw [contains,BitVec.and_assoc,h]
    rfl

theorem contains_trunc (mode : InodeMode) : contains (opened mode flags) OpenFlags.O_TRUNC = true ↔
    (mode = .Regular ∧ flags.isWritable) ∧ contains flags OpenFlags.O_TRUNC := by
  unfold opened
  split_ifs with h
  · simp [h]
  · have hnone : ~~~OpenFlags.O_TRUNC &&& OpenFlags.O_TRUNC = 0#32 := by decide
    rw [contains,BitVec.and_assoc,hnone,BitVec.and_zero]
    exact ⟨fun hfalse => absurd hfalse (by decide),fun hand => (h hand.1).elim⟩

def counted (s : Vfs δ) (ino : ℕ) (i : InodeMeta) : Vfs δ :=
  s.setInode ino { i with iOpenCount := i.iOpenCount + 1 }

theorem sameTree_counted (s : Vfs δ) (ino : ℕ) (i : InodeMeta) : SameTree s (counted s ino i) :=
  ⟨rfl,rfl,rfl,rfl⟩

theorem openDentry_eq (hd : s.dentries c = some d) (hi : s.inodes d.dInode = some i)
    (flags : OpenFlags) :
    openDentry c flags s = if d.kind ≠ .device ∧ contains flags OpenFlags.O_TRUNC then
      .error (.panic .deadlock) (counted s d.dInode i) else .ok () (counted s d.dInode i) := by
  unfold openDentry
  rw [bind_ok (dentry_eq hd),bind_ok (inodeMeta_eq hi),
    bind_ok (rfl : (modify _ : Fs δ Unit) s = .ok () (counted s d.dInode i))]
  split <;> rfl

theorem sysOpenat_found (h : pathToDentry lw path s = .ok (some c) s₁)
    (hd : s₁.dentries c = some d) (hi : s₁.inodes d.dInode = some i)
    (hcreat : contains flags OpenFlags.O_CREAT) :
    sysOpenat lw path flags s =
      (if contains flags OpenFlags.O_DIRECTORY ∧ i.iMode ≠ .Directory then fail .ENOTDIR
      else if contains flags OpenFlags.O_EXCL then fail .EEXIST
      else do
        openDentry c (opened i.iMode flags)
        pure (c, opened i.iMode flags)) s₁ := by
  unfold sysOpenat
  rw [bind_ok h]
  dsimp only
  rw [bind_ok (dentry_eq hd),bind_ok (inodeMeta_eq hi)]
  change (if contains (opened i.iMode flags) OpenFlags.O_DIRECTORY ∧ i.iMode ≠ .Directory then _
    else if contains (opened i.iMode flags) OpenFlags.O_CREAT ∧
      contains (opened i.iMode flags) OpenFlags.O_EXCL then _ else _ : Fs δ (ℕ × OpenFlags)) s₁ = _
  rw [contains_opened _ (by decide),contains_opened _ (by decide),contains_opened _ (by decide),
    hcreat]
  simp only [true_and]
  rfl

theorem sysOpenat_refused (h : pathToDentry lw path s = .ok (some c) s₁)
    (hd : s₁.dentries c = some d) (hi : s₁.inodes d.dInode = some i)
    (hcreat : contains flags OpenFlags.O_CREAT) (hrefuse : Refuses s₁ c flags) :
    ∃ x, sysOpenat lw path flags s = .error (.errno x) s₁ := by
  rw [Refuses,isDirectory_iff hd hi] at hrefuse
  rw [sysOpenat_found h hd hi hcreat]
  split_ifs with hdir hexcl
  · exact ⟨_,rfl⟩
  · exact ⟨_,rfl⟩
  · exact (hrefuse.elim hdir hexcl).elim

theorem sysOpenat_parent (h : pathToDentry lw path s = .ok none s₁)
    (h' : pathToDentry lw (parentPath path) s₁ = .ok (some fa) s₂)
    (hcreat : contains flags OpenFlags.O_CREAT) : sysOpenat lw path flags s = (do
      let child ← create lw fa (dentryName path) .Regular
      openDentry child flags
      pure (child, flags)) s₂ := by
  unfold sysOpenat
  rw [bind_ok h]
  dsimp only
  rw [if_pos hcreat,bind_ok h',bind_ok (rfl : unwrap (some fa) s₂ = .ok fa s₂)]

variable {w : World δ} {p ti : ℕ} {t : FdTable}

theorem sysOpen_error (h : sysOpenat lw path flags w.vfs = .error e s) :
    sysOpen lw p path flags w = .error e { w with vfs := s } := by
  have hcall : onVfs (sysOpenat lw path flags) w = .error e { w with vfs := s } := by
    unfold onVfs
    rw [h]
  exact bind_error hcall

theorem sysOpen_ok (hp : w.procs[p]? = some ti) (ht : w.tables[ti]? = some t) {fl : OpenFlags}
    (h : sysOpenat lw path flags w.vfs = .ok (c, fl) s) (hd : s.dentries c = some d) :
    (lowest t = none → ∃ w', sysOpen lw p path flags w = .error (.errno .EBADF) w' ∧
      w'.vfs = s) ∧
    (lowest t ≠ none → ∃ fd w' file, sysOpen lw p path flags w = .ok fd w' ∧ w'.vfs = s ∧
      fileOf w' p fd = some file ∧ file.fDentry = c) := by
  have hcall : onVfs (sysOpenat lw path flags) w = .ok (c, fl) { w with vfs := s } := by
    unfold onVfs
    rw [h]
  have hentry : onVfs (dentry c) { w with vfs := s } = .ok d { w with vfs := s } := by
    unfold onVfs
    rw [dentry_eq hd]
  obtain ⟨w₁,hvfs,hp₁,ht₁,hfile,hopen⟩ : ∃ w₁ : World δ, w₁.vfs = s ∧ w₁.procs[p]? = some ti ∧
      w₁.tables[ti]? = some t ∧ w₁.files w.nextFile = some ⟨c,d.dInode,0⟩ ∧
      sysOpen lw p path flags w =
        onTable p (FdTable.insertGetFd ⟨.opened w.nextFile,fl⟩) w₁ := by
    unfold sysOpen
    rw [bind_ok hcall,bind_ok hentry]
    exact ⟨{ w with
      vfs := s
      files := update w.files w.nextFile (some ⟨c,d.dInode,0⟩)
      nextFile := w.nextFile + 1 },rfl,hp,ht,update_self _ _ _,rfl⟩
  rw [hopen,onTable_eq hp₁ ht₁]
  refine ⟨fun hfull => ?_,fun hfree => ?_⟩
  · rw [insertGetFd_none hfull]
    exact ⟨_,rfl,hvfs⟩
  · obtain ⟨fd,hfd⟩ := Option.ne_none_iff_exists'.mp hfree
    rw [insertGetFd_some hfd]
    refine ⟨fd,_,⟨c,d.dInode,0⟩,rfl,hvfs,?_,rfl⟩
    have hlt : ti < w₁.tables.length := (List.getElem?_eq_some_iff.mp ht₁).1
    simp [fileOf,World.withTable,hp₁,hlt,lookup_taken,hfile]

theorem truncates_iff (hd : s.dentries c = some d) (hi : s.inodes d.dInode = some i) :
    Truncates s c flags ↔
      d.kind ≠ .device ∧ contains (opened i.iMode flags) OpenFlags.O_TRUNC = true := by
  rw [contains_trunc]
  constructor
  · rintro ⟨d',i',hd',hi',hk,hmode,hwrite,htrunc⟩
    cases hd.symm.trans hd'
    cases hi.symm.trans hi'
    exact ⟨hk,⟨hmode,hwrite⟩,htrunc⟩
  · rintro ⟨hk,⟨hmode,hwrite⟩,htrunc⟩
    exact ⟨d,i,hd,hi,hk,hmode,hwrite,htrunc⟩

theorem isDirectory_counted {ino e : ℕ} (hi : s.inodes ino = some i) :
    IsDirectory (counted s ino i) e ↔ IsDirectory s e := by
  have hmode : ∀ n, ((counted s ino i).inodes n).map InodeMeta.iMode =
      (s.inodes n).map InodeMeta.iMode := by
    intro n
    by_cases hn : n = ino
    · subst hn
      simp [counted,Vfs.setInode,hi]
    · simp [counted,Vfs.setInode,hn]
  simp only [isDirectory_iff_mode,hmode]
  rfl

section

variable (u : Usable dev w.vfs) (hs : Settled lw w.vfs path) (hp : w.procs[p]? = some ti)
  (ht : w.tables[ti]? = some t) (hcreat : contains flags OpenFlags.O_CREAT)
include u hs hp ht hcreat

theorem open_found (hfound : resolved w.vfs path = some c) : OpenRight lw p path flags w ↔
    Refuses w.vfs c flags ∨ ¬ Truncates w.vfs c flags ∧
      (lowest t ≠ none → ¬ IsDirectory w.vfs c ∧ DirectoryAt lw w.vfs (parentPath path)) := by
  obtain ⟨cache,-,hcache,-,h,-⟩ := lookups_settled u hs
  rw [hfound] at h
  have u₁ := Usable.withCache u hcache
  obtain ⟨d,hd,-⟩ := resolved_entry u.tree hfound
  obtain ⟨i,hi⟩ := u.entry hd
  have hcall := sysOpenat_found h hd hi hcreat
  unfold OpenRight
  by_cases hrefuse : Refuses w.vfs c flags
  · obtain ⟨x,hx⟩ := sysOpenat_refused h hd hi hcreat hrefuse
    rw [sysOpen_error hx]
    exact iff_of_true ⟨rfl,hcache⟩ (.inl hrefuse)
  · have hno := hrefuse
    rw [Refuses,isDirectory_iff hd hi,not_or] at hno
    rw [if_neg hno.1,if_neg hno.2] at hcall
    have hopen := openDentry_eq (s := { w.vfs with cache := cache }) hd hi (opened i.iMode flags)
    simp only [hrefuse,false_or,truncates_iff hd hi]
    by_cases htrunc : d.kind ≠ .device ∧ contains (opened i.iMode flags) OpenFlags.O_TRUNC = true
    · rw [if_pos htrunc] at hopen
      rw [bind_error hopen] at hcall
      rw [sysOpen_error hcall]
      simp [htrunc]
    · rw [if_neg htrunc] at hopen
      obtain ⟨hfull,hfree⟩ := sysOpen_ok hp ht (hcall.trans (bind_ok hopen)) hd
      simp only [htrunc,not_false_eq_true,true_and]
      by_cases hnone : lowest t = none
      · obtain ⟨w',hw',hvfs⟩ := hfull hnone
        rw [hw']
        refine iff_of_true ?_ fun hne => (hne hnone).elim
        dsimp only
        rw [hvfs]
        exact ⟨rfl,hcache⟩
      · obtain ⟨fd,w',file,hw',hvfs,hfile,rfl⟩ := hfree hnone
        have hsame := sameTree_counted { w.vfs with cache := cache } d.dInode i
        have hleads : LeadsTo lw (counted { w.vfs with cache := cache } d.dInode i) path
            file.fDentry :=
          (leadsTo_same u₁.tree rfl not_false hsame hd).mpr
            (keepsPaths_withCache lw u hcache path _ (by simp [hd])
              ((leadsTo_iff_resolved u.tree (by simp [hd])).mpr hfound))
        have hkeeps := (keepsPaths_same (s := w.vfs) lw u₁.tree rfl not_false hsame
          fun _ he => he).mpr (keepsPaths_withCache lw u hcache)
        have hkind := isDirectory_counted (s := { w.vfs with cache := cache })
          (e := file.fDentry) hi
        rw [hw']
        simp only [hvfs,ne_eq,hnone,not_false_eq_true,true_imp_iff]
        constructor
        · rintro ⟨⟨file',hfile',-,hdir⟩,-,hparent⟩
          cases hfile.symm.trans hfile'
          exact ⟨hkind.not.mp hdir,hparent⟩
        · rintro ⟨hdir,hparent⟩
          exact ⟨⟨file,hfile,hleads,hkind.not.mpr hdir⟩,hkeeps,hparent⟩

theorem open_missing (hmissing : resolved w.vfs path = none)
    (hfa : resolved w.vfs (parentPath path) = some fa) : OpenRight lw p path flags w ↔
      (Accepts lw w.vfs fa (dentryName path) .Regular →
        contains flags OpenFlags.O_TRUNC = false ∧ lowest t ≠ none ∧ IsDirectory w.vfs fa ∧
        w.vfs.cache.lookup (absolute (components path)) = none) := by
  obtain ⟨cache,cache',-,hcache',h,h'⟩ := lookups_settled u hs
  rw [hmissing] at h
  rw [hfa] at h'
  obtain ⟨d,hd,-⟩ := resolved_entry u.tree hfa
  have hcall := sysOpenat_parent h h' hcreat
  unfold OpenRight
  by_cases haccept : Accepts lw w.vfs fa (dentryName path) .Regular
  · obtain ⟨s₃,hcreate,hmade⟩ := create_made u (.inl rfl) h h' haccept
    obtain ⟨d',hd',hk,-⟩ := id haccept
    cases hd.symm.trans hd'
    obtain ⟨_,_,dc,-,-,hattach,hino,hkc⟩ := hmade.attached
    have hi := hmade.inode hino
    have hopen := openDentry_eq hattach.child hi flags
    have hkeeps := hmade.keeps.trans (undisturbed_iff u hs hcache' hmissing hfa hd hk)
    have hparent : DirectoryAt lw w.vfs (parentPath path) ↔ IsDirectory w.vfs fa := by
      simp [directoryAt_iff u hs.parent,hfa]
    rw [bind_ok hcreate] at hcall
    simp only [haccept,true_imp_iff]
    by_cases htrunc : contains flags OpenFlags.O_TRUNC = true
    · rw [if_pos ⟨hkc,htrunc⟩] at hopen
      rw [bind_error hopen] at hcall
      rw [sysOpen_error hcall]
      simp [htrunc]
    · rw [if_neg fun hboth => htrunc hboth.2] at hopen
      obtain ⟨hfull,hfree⟩ := sysOpen_ok hp ht (hcall.trans (bind_ok hopen)) hattach.child
      simp only [htrunc,true_and]
      by_cases hnone : lowest t = none
      · obtain ⟨w',hw',hvfs⟩ := hfull hnone
        rw [hw']
        refine iff_of_false (fun hsame => ?_) fun hfits => hfits.1 hnone
        have hnew : w.vfs.dentries w.vfs.nextDentry = some dc := by
          rw [← hsame.1,hvfs]
          exact hattach.child
        rw [u.tree.fresh _ le_rfl] at hnew
        cases hnew
      · obtain ⟨fd,w',file,hw',hvfs,hfile,hentry⟩ := hfree hnone
        have hrooted : rootOf s₃ = (looseTop w.vfs).root :=
          congrArg TreeTop.root (looseTop_eq hmade.inv)
        have hsame := sameTree_counted s₃ dc.dInode ⟨.Regular,1,0⟩
        have hleads := (leadsTo_same hmade.inv hrooted not_false hsame hattach.child).mpr
          (hmade.leads ((hcache' path).trans (resolved_none hs hmissing).2.1))
        have hkept := (keepsPaths_same (s := w.vfs) lw hmade.inv hrooted not_false hsame
          fun e he => hmade.kept he).trans hkeeps
        have hregular : ¬ IsDirectory (counted s₃ dc.dInode ⟨.Regular,1,0⟩) file.fDentry := by
          rw [hentry,isDirectory_counted hi,isDirectory_iff hattach.child hi]
          exact fun hdir => InodeMode.noConfusion hdir
        rw [hw']
        simp only [hvfs,hkept,hparent]
        refine ⟨fun hright => ⟨hnone,hright.2.2,hright.2.1⟩,fun hfits => ?_⟩
        exact ⟨⟨file,hfile,hentry ▸ hleads,hregular⟩,hfits.2.2,hfits.2.1⟩
  · obtain ⟨x,t,hcreate,disk,rfl⟩ := create_refused (s := { w.vfs with cache := cache' })
      (.inl rfl) hd (exists_last (resolved_none hs hmissing).1).2 haccept
    rw [bind_error hcreate] at hcall
    rw [sysOpen_error hcall]
    exact iff_of_true ⟨rfl,hcache'⟩ fun hyes => (haccept hyes).elim

theorem open_right :
    OpenRight lw p path flags w ↔ OpenFits lw path flags w.vfs (lowest t ≠ none) := by
  unfold OpenFits
  cases hfound : resolved w.vfs path with
  | some c =>
    rw [open_found u hs hp ht hcreat hfound,directoryAt_iff u hs.parent]
  | none =>
    cases hfa : resolved w.vfs (parentPath path) with
    | some fa =>
      rw [open_missing u hs hp ht hcreat hfound hfa]
      simp
    | none =>
      obtain ⟨cache,cache',-,-,h,h'⟩ := lookups_settled u hs
      rw [hfound] at h
      rw [hfa] at h'
      have hcall : sysOpenat lw path flags w.vfs =
          .error (.panic .unwrapNone) { w.vfs with cache := cache' } := by
        refine (bind_ok h).trans ?_
        rw [if_pos hcreat]
        exact bind_ok h'
      unfold OpenRight
      rw [sysOpen_error hcall]
      simp

end

end Opening

theorem usable_of_stands (inv : Stands False s) (h : HasInodes s) : Usable False s :=
  ⟨loose_of_stands inv,h,fun _ _ c _ dc _ _ hdc hk => (inv.devices c dc hdc hk).elim⟩

theorem mounted_usable {disk : ListDisk} {depth : ℕ} {s : Vfs ListDisk}
    (h : mount listDisk depth ['/'] true .EXT4 (Vfs.cold disk) = .ok () s) : Usable False s := by
  have hroot : ∀ disk' : ListDisk, HasInodes (addEntry
      (withInode { Vfs.cold disk with disk := disk' } .Directory) (diskRoot 0)) := by
    intro disk' id d hd
    by_cases hid : id = 0
    · subst hid
      obtain rfl : diskRoot 0 = d := Option.some.inj hd
      exact ⟨Nat.zero_lt_one,_,rfl⟩
    · exact absurd ((update_of_ne hid _ _).symm.trans hd) (by simp [Vfs.cold,withInode])
  obtain ⟨inv,hinodes⟩ := (mountExt4_keeps listDisk (fun _ => hasInodes_kept)
    (cold_stands disk : Stands False _) rfl rfl listsNames_listDisk depth hroot
    fun _ _ h => h).of_ok h
  exact usable_of_stands inv hinodes

theorem settled_single {r : ℕ} {dr : Dentry} (hroot : rootOf s = some r)
    (hr : s.dentries r = some dr) (hp : components path = [a])
    (hknown : ∀ x d, childOf s r a = some x → s.dentries x = some d →
      s.cache.lookup d.dPath = some x)
    (hunseen : childOf s r a = none → ∀ type,
      lw.checkInodeExist s.disk (joinName a dr.dPath) type = false) : Settled lw s path := by
  have hplace : At (looseTop s) s [] r := ⟨r,hroot,.root⟩
  have hlast : ∀ {l b}, l ++ [b] <+: components path → l = [] ∧ b = a := by
    intro l b hl
    rw [hp] at hl
    have hlen := hl.length_le
    obtain rfl : l = [] := List.eq_nil_of_length_eq_zero (by simpa using hlen)
    exact ⟨rfl,by simpa using hl⟩
  refine ⟨by simp [hroot],fun l x d hl hne hat hd => ?_,fun l b q d hl hat hd hnone _ => ?_⟩
  · obtain ⟨l,b,rfl⟩ := (List.eq_nil_or_concat' l).resolve_left hne
    obtain ⟨rfl,rfl⟩ := hlast hl
    obtain ⟨q,hq,hedge⟩ := hat.of_append
    rw [hq.unique hplace] at hedge
    exact hknown x d hedge hd
  · obtain ⟨rfl,rfl⟩ := hlast hl
    obtain rfl := hat.unique hplace
    cases hr.symm.trans hd
    exact hunseen hnone

def RootShape (s : Vfs ListDisk) : Prop :=
  rootOf s = some 0 ∧ s.disk = [(['/', 'f'], .regFile)] ∧
  (s.dentries 0).map (fun d => (d.dInode, d.dPath)) = some (0, ['/']) ∧
  (s.dentries 1).map (fun d => (d.dInode, d.dPath)) = some (1, ['/', 'f']) ∧
  childOf s 0 ['d'] = none ∧ childOf s 0 ['f'] = some 1 ∧
  s.inodes 0 = some ⟨.Directory, 1, 0⟩ ∧ s.inodes 1 = some ⟨.Regular, 1, 0⟩ ∧
  s.cache.lookup ['/'] = some 0 ∧ s.cache.lookup ['/', 'f'] = some 1 ∧
  s.cache.lookup ['/', 'd'] = none

instance decidableRootShape (s : Vfs ListDisk) : Decidable (RootShape s) :=
  inferInstanceAs (Decidable (_ ∧ _ ∧ _ ∧ _ ∧ _ ∧ _ ∧ _ ∧ _ ∧ _ ∧ _ ∧ _))

theorem mount_rootShape : ∃ s : Vfs ListDisk,
    mount listDisk 2 ['/'] true .EXT4 (Vfs.cold [(['/', 'f'], .regFile)]) = .ok () s ∧
    RootShape s := by
  have hrun : returnsWith (mount listDisk 2 ['/'] true .EXT4)
      (Vfs.cold [(['/','f'], .regFile)]) (fun _ s => RootShape s) = true := by decide +kernel
  obtain ⟨_,s,hs,hshape⟩ := returnsWith_elim hrun
  exact ⟨s,hs,of_decide_eq_true hshape⟩

theorem RootShape.settled {s : Vfs ListDisk} (h : RootShape s) :
    Settled listDisk s ['/', 'd'] ∧ Settled listDisk s ['/', 'f'] := by
  obtain ⟨hroot,hdisk,hzero,hone,hnone,hsome,-,-,-,hcache,-⟩ := h
  obtain ⟨d,hd,hmap⟩ := Option.map_eq_some_iff.mp hzero
  obtain ⟨f,hf,hfile⟩ := Option.map_eq_some_iff.mp hone
  simp only [Prod.mk.injEq] at hmap hfile
  refine ⟨settled_single (a := ['d']) hroot hd (by decide) (fun x e hx => ?_) fun _ type => ?_,
    settled_single (a := ['f']) hroot hd (by decide) (fun x e hx he => ?_) fun hno => ?_⟩
  · cases hnone.symm.trans hx
  · rw [hmap.2,hdisk]
    cases type <;> decide
  · cases hsome.symm.trans hx
    cases hf.symm.trans he
    rw [hfile.2,hcache]
  · cases hsome.symm.trans hno

theorem RootShape.mkdirFits {s : Vfs ListDisk} (h : RootShape s) :
    MkdirFits listDisk ['/', 'd'] s := by
  obtain ⟨hroot,-,-,-,hnone,-,-,-,hcache,-,hcold⟩ := h
  have hmissing : resolved s ['/','d'] = none := by
    rw [resolved,hcold,hroot,show components ['/','d'] = [['d']] by decide]
    simp [walk,hnone]
  unfold MkdirFits
  rw [hmissing]
  refine ⟨0,?_,fun _ => ?_⟩
  · rw [show parentPath ['/','d'] = ['/'] by decide,resolved,hcache]
  · rw [show absolute (components ['/','d']) = ['/','d'] by decide,hcold]

theorem RootShape.openFits {s : Vfs ListDisk} (h : RootShape s) :
    OpenFits listDisk ['/', 'f'] OpenFlags.O_CREAT s True := by
  obtain ⟨-,-,hzero,hone,-,-,hi,hi',hcache,hcached,-⟩ := h
  obtain ⟨d,hd,hmap⟩ := Option.map_eq_some_iff.mp hzero
  obtain ⟨f,hf,hfile⟩ := Option.map_eq_some_iff.mp hone
  simp only [Prod.mk.injEq] at hmap hfile
  unfold OpenFits
  rw [show resolved s ['/','f'] = some 1 by rw [resolved,hcached]]
  refine .inr ⟨?_,fun _ => ⟨?_,0,?_,d,_,hd,hmap.1.symm ▸ hi,rfl⟩⟩
  · rintro ⟨_,_,_,_,_,_,_,hflag⟩
    exact absurd hflag (by decide)
  · rw [isDirectory_iff hf (hfile.1 ▸ hi' : s.inodes f.dInode = some ⟨.Regular,1,0⟩)]
    decide
  · rw [show parentPath ['/','f'] = ['/'] by decide,resolved,hcache]

end DuckOs.FileCreation
