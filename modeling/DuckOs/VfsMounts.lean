import DuckOs.VfsCalls

namespace DuckOs.VfsMounts
open ExecutionRules PathModel VfsModel VfsTrees VfsLookups Function

variable {δ : Type} {dev : Prop} {top : TreeTop} {s s' : Vfs δ} {d : Dentry}
  {a mountPoint source : Str} {c : ℕ} {l : List Str} {fsType : FSType} {E : Fault → Vfs δ → Prop}
  {J : Vfs δ → Prop}

section Loading

def ListsNames (lw : Lwext4 δ) : Prop :=
  ∀ disk path entries, lw.dirEntries disk path = some entries →
    (∀ e ∈ entries, ValidName e.1 ∧ Plain e.1) ∧ (entries.map Prod.fst).Nodup

def RightBelow (upper l : List Str) (_ : Str) : Prop := l = upper

variable (lw : Lwext4 δ) {this : ℕ}

theorem bootDisk_changes {α : Type} (inv : TreeInv dev top s)
    (x : EStateM VirtMemoryModel.Errno δ α) :
    Holds (onDisk x) s (fun _ s' => DiskOnly s s') (Recovers dev top) :=
  (onDisk_changes x).onError fun _ _ h _ _ => h.sameTree.treeInv inv

theorem loadEntries_keeps (hJ : Kept dev top J) :
    ∀ (entries : List (Str × InodeMode)) (s : Vfs δ) (d : Dentry),
    TreeInv dev top s → At top s l this → s.dentries this = some d → d.kind = .ext4 →
    (∀ e ∈ entries, ValidName e.1 ∧ Plain e.1) → (entries.map Prod.fst).Nodup →
    (∀ e ∈ entries, childOf s this e.1 = none) → J s →
    Holds (loadEntries lw this d.dPath entries) s
      (fun _ s' => TreeInv dev top s' ∧ Grows top (RightBelow l) s s' ∧ J s')
      (Recovers dev top) := by
  intro entries
  induction entries with
  | nil =>
    intro s d inv _ _ _ _ _ _ hs
    exact holds_pure ⟨inv,(SameTree.refl s).grows _,hs⟩
  | cons entry rest ih =>
    obtain ⟨name,mode⟩ := entry
    intro s d inv hat hd hk hnames hnodup hfree hs
    have hkd : d.kind ≠ .device := by rw [hk]; exact ext4_ne_device
    obtain ⟨hname,hplain⟩ := hnames _ List.mem_cons_self
    obtain ⟨hnew,hnodup'⟩ := List.nodup_cons.mp hnodup
    have hrest : ∀ s₁, DiskOnly s s₁ → Holds (do
        let inode ← newInode mode
        let child ← newDentry .ext4 name (joinName name d.dPath) inode (some this)
        modify fun s => (s.insertChild this name child).cacheInsert (joinName name d.dPath) child
        loadEntries lw this d.dPath rest) s₁
        (fun _ s' => TreeInv dev top s' ∧ Grows top (RightBelow l) s s' ∧ J s')
        (Recovers dev top) := by
      rintro _ ⟨disk,rfl⟩
      have h₁ : SameTree s { s with disk := disk } := ⟨rfl,rfl,rfl,rfl⟩
      have h : SameTree s (withInode { s with disk := disk } mode) := ⟨rfl,rfl,rfl,rfl⟩
      have hfree₁ : childOf s this name = none := hfree _ List.mem_cons_self
      obtain ⟨inv₃,hg,hchildren⟩ := withEntry_grows (P := RightBelow l) (h.treeInv inv)
        (h.at.mpr hat) hd hkd hname (fun _ => hplain)
          (by rw [h.childOf_eq]; exact hfree₁) rfl s.nextInode
      have hs₃ := hJ.entry mode (h₁.treeInv inv) (h₁.at.mpr hat) hd hk hname (fun _ => hplain)
        (by rw [h₁.childOf_eq]; exact hfree₁) (hJ.disk disk hs)
      obtain ⟨children,hd₃⟩ := hg.kept this d hd
      refine holds_bind_ok rfl (holds_bind_ok rfl (holds_bind_ok rfl ?_))
      refine (ih _ { d with dChild := children } inv₃ (hg.at (h.at.mpr hat)) hd₃ hk
        (fun e he => hnames e (List.mem_cons_of_mem _ he)) hnodup' (fun e he => ?_) hs₃).imp ?_
      · have hne : e.1 ≠ name := by
          rintro rfl
          exact hnew (List.mem_map.mpr ⟨e,he,rfl⟩)
        rw [hchildren e.1,if_neg hne,h.childOf_eq]
        exact hfree e (List.mem_cons_of_mem _ he)
      · rintro _ s' ⟨inv',hg',hs'⟩
        exact ⟨inv',(h.grows _).trans (hg.trans hg'),hs'⟩
    refine holds_bind_ok (cwdAndName_eq hname d.dPath) ?_
    split
    · exact (bootDisk_changes inv _).bind fun _ s₁ h => hrest s₁ h
    · exact (bootDisk_changes inv _).bind fun _ s₁ h => hrest s₁ h
    · exact stop_after

theorem loadChild_keeps (hJ : Kept dev top J) (hlist : ListsNames lw) (inv : TreeInv dev top s)
    (hat : At top s l this) (hd : s.dentries this = some d) (hk : d.kind = .ext4)
    (hleaf : LeafAt top s l) (hs : J s) : Holds (loadChild lw this) s
      (fun _ s' => TreeInv dev top s' ∧ Grows top (RightBelow l) s s' ∧ J s')
      (Recovers dev top) := by
  refine holds_bind_ok (dentry_eq hd) (holds_get ?_)
  refine unwrap_bind fun entries hentries => ?_
  obtain ⟨hnames,hnodup⟩ := hlist _ _ _ hentries
  exact loadEntries_keeps lw hJ entries s d inv hat hd hk hnames hnodup
    (fun e _ => hleaf this hat e.1) hs

theorem loaded_child (inv' : TreeInv dev top s') (hat : At top s l this) (hleaf : LeafAt top s l)
    (hg : Grows top (RightBelow l) s s') (hc : childOf s' this a = some c) :
    LeafAt top s' (l ++ [a]) ∧ ∀ d, s'.dentries c = some d → d.kind = .ext4 := by
  have hnone : s.dentries c = none := by
    rcases hg.place inv' (hg.at hat) hc with hold | ⟨hnone,-⟩
    · rw [hleaf this hat] at hold
      cases hold
    · exact hnone
  refine ⟨fun c' hc' a' => ?_,fun d hd => ?_⟩
  · by_contra hne
    obtain ⟨e,he⟩ := Option.ne_none_iff_exists'.mp hne
    rw [hc'.unique ((hg.at hat).child hc)] at he
    rcases hg.place inv' ((hg.at hat).child hc) he with hold | ⟨-,hP⟩
    · rw [childOf_none hnone] at hold
      cases hold
    · simp [RightBelow] at hP
  · rcases hg.kinds c d hd with hext4 | ⟨d',hd',-⟩
    · exact hext4
    · rw [hnone] at hd'
      cases hd'

theorem not_below {b n : Str} (hne : a ≠ b) : ¬ Below (l ++ [a]) (l ++ [b]) n := by
  intro h
  have heq := h.eq_of_length (by simp)
  exact hne (by simpa using heq)

theorem loadAllChild_keeps (hJ : Kept dev top J) (hlist : ListsNames lw) :
    ∀ (depth this : ℕ) (l : List Str) (s : Vfs δ),
    TreeInv dev top s → At top s l this → LeafAt top s l →
    (∀ d, s.dentries this = some d → d.kind = .ext4) → J s →
    Holds (loadAllChild lw depth this) s
      (fun _ s' => TreeInv dev top s' ∧ Grows top (Below l) s s' ∧ J s') (Recovers dev top) := by
  intro depth
  induction depth with
  | zero =>
    intro this l s _ _ _ _ _
    exact stop_after
  | succ depth ih =>
    intro this l s inv hat hleaf hk hs
    obtain ⟨d,hd⟩ := inv.exists_of_at hat
    refine holds_bind_ok (dentry_eq hd) ?_
    refine inodeMeta_bind fun i _ => ?_
    split
    case isFalse => exact holds_pure ⟨inv,(SameTree.refl s).grows _,hs⟩
    refine (loadChild_keeps lw hJ hlist inv hat hd (hk d hd) hleaf hs).bind ?_
    rintro _ s₁ ⟨inv₁,hg₁,hs₁⟩
    refine dentry_bind fun d₁ hd₁ => ?_
    have hbelow : Grows top (Below l) s s₁ := hg₁.imp fun l' _ h => by
      rw [h]
      exact List.prefix_refl l
    refine (holds_foldlM (fun rest _ t => TreeInv dev top t ∧ Grows top (Below l) s t ∧ J t ∧
      (rest.map Sigma.fst).Nodup ∧ ∀ e ∈ rest, childOf t this e.1 = some e.2 ∧
        LeafAt top t (l ++ [e.1]) ∧ ∀ d, t.dentries e.2 = some d → d.kind = .ext4)
      ?_ d₁.dChild.entries () s₁ ⟨inv₁,hbelow,hs₁,d₁.dChild.nodupKeys,fun e he => ?_⟩).imp ?_
    · rintro e rest _ t ⟨invt,hgt,ht,hnodup,hrest⟩
      obtain ⟨hc,hleafc,hkc⟩ := hrest e List.mem_cons_self
      obtain ⟨hnew,hnodup'⟩ := List.nodup_cons.mp hnodup
      have hatc := (hgt.at hat).child hc
      refine (ih e.2 (l ++ [e.1]) t invt hatc hleafc hkc ht).imp ?_
      rintro _ t' ⟨inv',hg',ht'⟩
      refine ⟨inv',hgt.trans (hg'.imp fun l' _ h => (List.prefix_append l [e.1]).trans h),ht',
        hnodup',fun e' he' => ?_⟩
      obtain ⟨hc',hleafc',hkc'⟩ := hrest e' (List.mem_cons_of_mem _ he')
      have hne : e.1 ≠ e'.1 := fun heq => hnew (by
        rw [heq]
        exact List.mem_map_of_mem he')
      refine ⟨hg'.edges _ _ _ hc',hleafc'.grows hg' invt inv' fun _ => not_below hne,
        fun d hd => ?_⟩
      rcases hg'.kinds e'.2 d hd with hext4 | ⟨d',hd',hkind,-⟩
      · exact hext4
      · rw [← hkind]
        exact hkc' d' hd'
    · have hc : childOf s₁ this e.1 = some e.2 := by
        rw [childOf_eq hd₁]
        exact AList.mem_lookup_iff.mpr he
      obtain ⟨hleafc,hkc⟩ := loaded_child inv₁ hat hleaf hg₁ hc
      exact ⟨hc,hleafc,hkc⟩
    · rintro _ t ⟨invt,hgt,ht,-⟩
      exact ⟨invt,hgt,ht⟩

end Loading

def Stands (dev : Prop) (s : Vfs δ) : Prop := TreeInv dev (topOf s) s

theorem rootOf_of_treeInv (h : TreeInv dev (topOf s) s') : rootOf s' = rootOf s := by
  rw [rootOf,rootOf,h.managed]
  rfl

theorem topOf_of_treeInv (h : TreeInv dev (topOf s) s') : topOf s' = topOf s := by
  rw [topOf,rootOf_of_treeInv h,h.managed]
  rfl

theorem stands_of_treeInv (h : TreeInv dev (topOf s) s') : Stands dev s' := by
  rw [Stands,topOf_of_treeInv h]
  exact h

section

variable (hn : top.named) (inv : TreeInv dev top s)
include hn inv

/-- Another table of mounts over the same tree. -/
theorem remanaged_stands {manager : StrMap FileSystem}
    (htop : rootOf { s with manager := manager } = top.root)
    (hmounted : ∀ mp fs r, manager.lookup mp = some fs → fs.rootDentry = some r →
      ∃ d, s.dentries r = some d ∧ d.kind ≠ .device ∧ (fs.fType ≠ .EXT4 → d.kind = .simple)) :
    Stands dev { s with manager := manager } := by
  refine ⟨inv.fresh,inv.devices,inv.paths,fun q a c hc => ?_,fun r hr => inv.root r (htop ▸ hr),
    hmounted,fun r hr => hr,rfl,fun p c hp => ?_⟩
  · obtain ⟨dq,dc,hq,hdc,hk,hvalid,hname,hrest⟩ := inv.edge q a c hc
    exact ⟨dq,dc,hq,hdc,hk,hvalid,fun _ => hname hn,hrest⟩
  · obtain ⟨d,hd,hpath,himp⟩ := inv.cached p c hp
    refine ⟨d,hd,hpath,fun hk => ?_⟩
    obtain ⟨l,r,hr,hl⟩ := himp hk
    exact ⟨l,r,htop.trans hr,hl⟩

theorem mount_stands {fs : FileSystem} (hroot : mountPoint = ['/'] → fs.rootDentry = top.root)
    (hrooted : mountPoint ≠ ['/'] → rootOf s = top.root)
    (hfs : ∀ r, fs.rootDentry = some r → ∃ d, s.dentries r = some d ∧ d.kind ≠ .device ∧
      (fs.fType ≠ .EXT4 → d.kind = .simple)) :
    Stands dev { s with manager := s.manager.insert mountPoint fs } := by
  refine remanaged_stands hn inv ?_ fun mp fs' r hfs' hr => ?_
  · unfold rootOf
    rw [lookup_inserted]
    split_ifs with hp
    · exact hroot hp.symm
    · exact hrooted (Ne.symm hp)
  · rcases inserted_cases hfs' with ⟨-,rfl⟩ | ⟨-,hold⟩
    · exact hfs r hr
    · exact inv.mounted mp fs' r hold hr

end

/-- Where a file system without a disk may be mounted. -/
structure Mountable (top : TreeTop) (s : Vfs δ) (mountPoint : Str) : Prop where
  normal : mountPoint = absolute (components mountPoint)
  plain : PlainPath mountPoint
  leaf : LeafAt top s (components mountPoint)
  parent : NoDevice top s (parentPath mountPoint)

/-- The directory of a mount point other than the root, and the name that the mount point has. -/
theorem Mountable.split (h : Mountable top s mountPoint) (inv : TreeInv dev top s)
    (hne : mountPoint ≠ ['/']) {q : ℕ} (hcached : s.cache.lookup (parentPath mountPoint) = some q) :
    ∃ l a dq, components mountPoint = l ++ [a] ∧ At top s l q ∧ s.dentries q = some dq ∧
      dq.kind ≠ .device ∧ joinName a dq.dPath = mountPoint := by
  have hsome : components mountPoint ≠ [] := fun hnil => hne (by rw [h.normal,hnil]; rfl)
  obtain ⟨l,a,hp⟩ := (List.eq_nil_or_concat' (components mountPoint)).resolve_left hsome
  have hat := h.parent.at_of_cached inv hcached
  obtain ⟨dq,hq⟩ := inv.exists_of_at hat
  have hk : dq.kind ≠ .device := fun hk => (h.parent q dq hq hk).2 hat
  rw [components_parentPath hp] at hat
  refine ⟨l,a,dq,hp,hat,hq,hk,?_⟩
  rw [inv.path_of_at hat hq hk,joinName_absolute (inv.validNames_of_at hat),← hp]
  exact h.normal.symm

theorem Mountable.same (h : Mountable top s mountPoint) (same : SameTree s s')
    (inv : TreeInv dev top s) : Mountable top s' mountPoint :=
  ⟨h.normal,h.plain,h.leaf.grows (same.grows fun _ _ => False) inv
    (same.treeInv inv) fun _ hf => hf,
    h.parent.grows (same.grows fun _ _ => False) inv⟩

theorem root_of_leaf (hleaf : LeafAt top s []) (hat : At top s l c) : l = [] := by
  cases l with
  | nil => rfl
  | cons a l =>
    obtain ⟨q,hq⟩ := At.of_prefix (l := [a]) hat
    obtain ⟨r,hr,hedge⟩ := At.of_append (l := []) hq
    rw [hleaf r hr] at hedge
    cases hedge

theorem newRoot_treeInv (hn : top.named) (inv : TreeInv dev top s) (hleaf : LeafAt top s [])
    (hk : d.kind ≠ .device) (hpath : d.dPath = ['/']) (hparent : d.dParent = none)
    (hempty : d.dChild = ∅) (cache : StrMap ℕ) (manager : StrMap FileSystem)
    (hcache : ∀ p c, cache.lookup p = some c →
      p = ['/'] ∧ c = s.nextDentry ∨ p ≠ ['/'] ∧ s.cache.lookup p = some c)
    (hmounted : ∀ mp fs r, manager.lookup mp = some fs → fs.rootDentry = some r →
      r = s.nextDentry ∧ (fs.fType ≠ .EXT4 → d.kind = .simple) ∨ s.manager.lookup mp = some fs)
    (hrooted : ∀ r, (manager.lookup ['/']).bind FileSystem.rootDentry = some r → r = s.nextDentry) :
    TreeInv dev ⟨some s.nextDentry, manager, True⟩
      { addEntry s d with cache := cache, manager := manager } := by
  have hfresh := inv.fresh s.nextDentry le_rfl
  have hself : (addEntry s d).dentries s.nextDentry = some d := update_self _ _ _
  have hkept : ∀ id, id ≠ s.nextDentry → (addEntry s d).dentries id = s.dentries id :=
    fun id hid => update_of_ne hid _ _
  have hsome : ∀ {id e}, s.dentries id = some e → (addEntry s d).dentries id = some e := by
    intro id e he
    rw [hkept id,he]
    rintro rfl
    rw [hfresh] at he
    cases he
  have hcases : ∀ id e, (addEntry s d).dentries id = some e →
      e = d ∨ s.dentries id = some e := by
    intro id e he
    by_cases hid : id = s.nextDentry
    · rw [hid,hself,Option.some.injEq] at he
      exact .inl he.symm
    · rw [hkept id hid] at he
      exact .inr he
  have hchild : childOf { addEntry s d with cache := cache, manager := manager } = childOf s := by
    funext id name
    by_cases hid : id = s.nextDentry
    · rw [hid,childOf_none hfresh]
      refine (childOf_eq hself name).trans ?_
      rw [hempty,AList.lookup_empty]
    · exact congrArg (fun o : Option Dentry => o.bind fun d => d.dChild.lookup name) (hkept id hid)
  refine ⟨fun id hid => ?_,fun id e he hke => ?_,fun id e he => ?_,?_,fun r hr => ?_,
    fun mp fs r hfs hr => ?_,fun r hr => by rw [hrooted r hr],rfl,fun p c hp => ?_⟩
  · change s.nextDentry + 1 ≤ id at hid
    exact (hkept id (by omega)).trans (inv.fresh id (by omega))
  · rcases hcases id e he with rfl | hold
    · exact (hk hke).elim
    · exact inv.devices id e hold hke
  · rcases hcases id e he with rfl | hold
    · exact ⟨[],fun _ h => (List.not_mem_nil h).elim,hpath⟩
    · exact inv.paths id e hold
  · rw [hchild]
    intro q name c hedge
    obtain ⟨dq,dc,hq,hc,hkq,hvalid,hname,hrest⟩ := inv.edge q name c hedge
    exact ⟨dq,dc,hsome hq,hsome hc,hkq,hvalid,fun _ => hname hn,hrest⟩
  · cases hr
    exact ⟨d,hself,hk,hpath,hparent⟩
  · rcases hmounted mp fs r hfs hr with ⟨rfl,hsimple⟩ | hold
    · exact ⟨d,hself,hk,hsimple⟩
    · obtain ⟨e,he,hrest⟩ := inv.mounted mp fs r hold hr
      exact ⟨e,hsome he,hrest⟩
  · rcases hcache p c hp with ⟨rfl,rfl⟩ | ⟨hne,hold⟩
    · exact ⟨d,hself,hpath,fun _ => ⟨[],s.nextDentry,rfl,.root⟩⟩
    · obtain ⟨e,he,hpe,himp⟩ := inv.cached p c hold
      refine ⟨e,hsome he,hpe,fun hke => ?_⟩
      obtain ⟨l,hat⟩ := himp hke
      obtain rfl := root_of_leaf hleaf hat
      exact (hne (hpe.symm.trans (inv.path_of_at hat he hke))).elim

section Mounting

variable (lw : Lwext4 δ)

def mountedAt (s : Vfs δ) (mountPoint : Str) (fType : FSType) (root : ℕ) : Vfs δ :=
  { s.cacheInsert mountPoint root with
    manager := s.manager.insert mountPoint ⟨fType, some root⟩ }

def Diskless (fsType : FSType) : Prop := fsType = .TmpFs ∨ fsType = .DevFs ∨ fsType = .ProcFs

def newRoot (s : Vfs δ) (m : Str) (q : ℕ) : Dentry :=
  ⟨.simple, formatPath (dentryName m), m, s.nextInode, some q, ∅⟩

def mounted (s : Vfs δ) (m : Str) (q : ℕ) (fsType : FSType) : Vfs δ :=
  mountedAt ((addEntry (withInode s .Directory) (newRoot s m q)).insertChild q (dentryName m)
    s.nextDentry) m fsType s.nextDentry

theorem newSimpleFs_eq {m : Str} (s : Vfs δ) (hm : m ≠ ['/']) :
    newSimpleFs m s = match s.cache.lookup (parentPath m) with
      | some q => .ok s.nextDentry ((addEntry (withInode s .Directory)
          (newRoot s m q)).insertChild q (dentryName m) s.nextDentry)
      | none => .error (.panic .unwrapNone) (withInode s .Directory) := by
  unfold newSimpleFs
  rw [bind_ok (rfl : newInode .Directory s = .ok s.nextInode (withInode s .Directory)),if_neg hm]
  change (unwrap (s.cache.lookup (parentPath m)) >>= _ : Fs δ ℕ) (withInode s .Directory) = _
  cases s.cache.lookup (parentPath m) <;> rfl

theorem mount_eq {m : Str} {q : ℕ} (hfs : Diskless fsType) (hm : m ≠ ['/'])
    (hparent : s.cache.lookup (parentPath m) = some q) (depth : ℕ) :
    mount lw depth m false fsType s = .ok () (mounted s m q fsType) := by
  have hnew := newSimpleFs_eq s hm
  rw [hparent] at hnew
  rcases hfs with rfl | rfl | rfl <;> exact bind_ok hnew

theorem mount_panics {m : Str} (hfs : Diskless fsType) (hm : m ≠ ['/'])
    (hparent : s.cache.lookup (parentPath m) = none) (depth : ℕ) :
    mount lw depth m false fsType s = .error (.panic .unwrapNone) (withInode s .Directory) := by
  have hnew := newSimpleFs_eq s hm
  rw [hparent] at hnew
  rcases hfs with rfl | rfl | rfl <;> exact bind_error hnew

theorem mountedRoot_stands (hn : top.named) (inv : TreeInv dev top s) (hleaf : LeafAt top s [])
    (hk : d.kind = .simple) (hpath : d.dPath = ['/']) (hparent : d.dParent = none)
    (hempty : d.dChild = ∅) (fType : FSType) :
    Stands dev (mountedAt (addEntry s d) ['/'] fType s.nextDentry) := by
  refine newRoot_treeInv hn inv hleaf (by rw [hk]; decide) hpath hparent hempty
    (s.cache.insert ['/'] s.nextDentry) (s.manager.insert ['/'] ⟨fType,some s.nextDentry⟩)
    (fun p c hp => ?_) (fun mp fs r hfs hr => ?_) fun r hr => ?_
  · exact inserted_cases hp
  · rcases inserted_cases hfs with ⟨-,rfl⟩ | ⟨-,hold⟩
    · exact .inl ⟨(Option.some.inj hr).symm,fun _ => hk⟩
    · exact .inr hold
  · rw [AList.lookup_insert] at hr
    exact (Option.some.inj hr).symm

theorem newSimpleFs_holds (inv : Stands dev s) (h : Mountable (topOf s) s mountPoint) :
    Holds (newSimpleFs mountPoint) s
      (fun root s₁ => ∀ fType, Stands dev (mountedAt s₁ mountPoint fType root))
      (Recovers dev (topOf s)) := by
  refine (newInode_holds .Directory).bind fun inode s₁ h₁ => ?_
  have inv₁ : TreeInv dev (topOf s) s₁ := h₁.treeInv inv
  have hm := h.same h₁ inv
  split
  · rename_i hroot
    subst hroot
    exact holds_ok rfl fun fType => mountedRoot_stands trivial inv₁ hm.leaf rfl rfl rfl rfl fType
  · rename_i hne
    refine holds_get ?_
    refine unwrap_bind fun q hcached => ?_
    obtain ⟨l,a,dq,hp,hat,hq,hk,hpath⟩ := hm.split inv₁ hne hcached
    obtain ⟨hname,hplain⟩ := h.plain.last hp
    have hleaf := hm.leaf
    rw [hp] at hleaf
    have ok := attachable_entry inv₁ hq hat hk hname (fun _ => hplain)
      (fun e he => hleaf e (hat.child he)) .simple simple_ne_device inode
    have hattach := addEntry_attaching inv₁ hq a
      ⟨.simple,formatPath a,joinName a dq.dPath,inode,some q,∅⟩
    have inv₂ := hattach.treeInv ok inv₁
    rw [hpath] at hattach inv₂
    rw [dentryName_append hp]
    refine holds_ok rfl fun fType => ?_
    refine mount_stands trivial inv₂ (fun hr => (hne hr).elim) (fun _ => rootOf_of_treeInv inv₂)
      fun r hr => ?_
    cases hr
    exact ⟨_,hattach.child,simple_ne_device,fun _ => rfl⟩

theorem mountSimple_holds (inv : Stands dev s) (h : Mountable (topOf s) s mountPoint)
    (hvfat : fsType ≠ .VFAT) (hext4 : fsType ≠ .EXT4) (depth : ℕ) (device : Bool) :
    Holds (mount lw depth mountPoint device fsType) s (fun _ s' => Stands dev s')
      (Recovers dev (topOf s)) := by
  have hmount := (newSimpleFs_holds inv h).bind (Q := fun _ s' => Stands dev s')
    (f := fun root => modify fun s => mountedAt s mountPoint fsType root)
    fun root s₁ hs => holds_ok rfl (hs fsType)
  unfold mount
  rw [if_neg fun hv => hvfat hv.2]
  cases fsType with
  | VFAT => exact (hvfat rfl).elim
  | EXT4 => exact (hext4 rfl).elim
  | ProcFs => exact hmount
  | DevFs => exact hmount
  | TmpFs => exact hmount

theorem bareRoot_treeInv (hn : top.named) (inv : TreeInv dev top s) (hroot : top.root = none)
    (hcache : s.cache = ∅) (hmanager : s.manager = ∅) (name : Str) (inode : ℕ) :
    TreeInv dev ⟨some s.nextDentry, s.manager, True⟩
      (addEntry s ⟨.ext4, name, ['/'], inode, none, ∅⟩) := by
  have hleaf : LeafAt top s [] := by
    rintro c ⟨r,hr,-⟩
    rw [hroot] at hr
    cases hr
  refine newRoot_treeInv hn inv hleaf ext4_ne_device rfl rfl rfl s.cache s.manager
    (fun p c hp => ?_)
    (fun mp fs r hfs _ => .inr hfs) fun r hr => ?_
  · rw [hcache,AList.lookup_empty] at hp
    cases hp
  · rw [hmanager,AList.lookup_empty] at hr
    cases hr

def diskRoot (inode : ℕ) : Dentry := ⟨.ext4, formatPath (dentryName ['/']), ['/'], inode, none, ∅⟩

section

variable (hJ : ∀ r, Kept dev ⟨some r, s.manager, True⟩ J) (inv : Stands dev s)
  (hcache : s.cache = ∅) (hmanager : s.manager = ∅) (hlist : ListsNames lw) (depth : ℕ)
  (hs : ∀ disk, J (addEntry (withInode { s with disk := disk } .Directory) (diskRoot s.nextInode)))
include hJ inv hcache hmanager hlist hs

theorem newExt4Fs_keeps : Holds (newExt4Fs lw depth ['/']) s
      (fun root s₁ => Stands dev (mountedAt s₁ ['/'] .EXT4 root) ∧ J s₁) fun _ _ => True := by
  have hroot : (topOf s).root = none := by
    rw [topOf,rootOf,hmanager]
    rfl
  unfold newExt4Fs
  refine (onDisk_changes _).orAny.bind ?_
  rintro _ _ ⟨disk,rfl⟩
  have h : SameTree s (withInode { s with disk := disk } .Directory) := ⟨rfl,rfl,rfl,rfl⟩
  refine holds_bind_ok rfl ?_
  refine holds_bind_ok rfl (holds_bind_ok rfl ?_)
  have inv₃ := bareRoot_treeInv trivial (h.treeInv inv) hroot hcache hmanager
    (formatPath (dentryName ['/'])) s.nextInode
  have hself : (addEntry (withInode { s with disk := disk } .Directory)
      (diskRoot s.nextInode)).dentries s.nextDentry = some (diskRoot s.nextInode) :=
    update_self _ _ _
  have hat : At ⟨some s.nextDentry,s.manager,True⟩
    (addEntry (withInode { s with disk := disk } .Directory)
      (diskRoot s.nextInode)) [] s.nextDentry := ⟨_,rfl,.root⟩
  refine (loadAllChild_keeps lw (hJ _) hlist depth s.nextDentry [] _ inv₃ hat (fun c hc a => ?_)
    (fun d hd => ?_) (hs disk)).orAny.bind ?_
  · rw [← hat.unique hc]
    exact (childOf_eq hself a).trans (AList.lookup_empty _)
  · cases hself.symm.trans hd
    rfl
  · rintro _ s₄ ⟨inv₄,hg,hs₄⟩
    obtain ⟨children,hd⟩ := hg.kept _ _ hself
    have inv₅ := inv₄.learn (hg.at hat) hd
    refine holds_pure ⟨mount_stands trivial inv₅ (fun _ => rfl) (fun hne => (hne rfl).elim)
      fun r hr => ?_,hs₄⟩
    cases hr
    exact ⟨_,hd,ext4_ne_device,fun hne => (hne rfl).elim⟩

theorem mountExt4_keeps (hmount : ∀ t root, J t → J (mountedAt t ['/'] .EXT4 root)) :
    Holds (mount lw depth ['/'] true .EXT4) s (fun _ s' => Stands dev s' ∧ J s')
      fun _ _ => True := by
  exact (newExt4Fs_keeps lw hJ inv hcache hmanager hlist depth hs).bind fun root t h =>
    holds_ok rfl ⟨h.1,hmount t root h.2⟩

end

theorem mountExt4_holds (inv : Stands dev s) (hcache : s.cache = ∅) (hmanager : s.manager = ∅)
    (hlist : ListsNames lw) (depth : ℕ) :
    Holds (mount lw depth ['/'] true .EXT4) s (fun _ s' => Stands dev s') fun _ _ => True :=
  (mountExt4_keeps lw (fun _ => kept_true) inv hcache hmanager hlist depth (fun _ => trivial)
    fun _ _ h => h).imp fun _ _ h => h.1

end Mounting

theorem cold_stands (disk : δ) : Stands dev (Vfs.cold disk) := by
  refine ⟨fun _ _ => rfl,fun _ _ hd => (by cases hd),fun _ _ hd => (by cases hd),
    fun _ _ _ he => (by cases he),fun _ hr => (by cases hr),fun mp fs r hfs => ?_,
    fun _ hr => hr,rfl,fun p c hp => ?_⟩
  · cases hfs
  · cases hp

theorem listsNames_listDisk : ListsNames listDisk := by
  rintro disk path entries hentries
  cases hentries
  refine ⟨fun e he => ?_,?_⟩
  · obtain ⟨name,hname,rfl⟩ := List.mem_map.mp he
    have hgood := (List.mem_filter.mp (List.mem_dedup.mp hname)).2
    simp only [decide_eq_true_eq] at hgood
    exact ⟨⟨hgood.1,hgood.2.1⟩,hgood.2.2⟩
  · rw [List.map_map]
    exact (List.map_id _).symm ▸ List.nodup_dedup _

section Devices

variable {root : ℕ} {name : Str}

theorem absolute_append_name (h : ∀ n ∈ l, ValidName n) (hname : ValidName name) :
    ∃ l' : List Str, (∀ n ∈ l', ValidName n) ∧ absolute l ++ name = absolute l' := by
  induction l using List.reverseRecOn with
  | nil =>
    refine ⟨[name],fun n hn => ?_,by simp [absolute]⟩
    rw [List.mem_singleton.mp hn]
    exact hname
  | append_singleton l b _ =>
    have hb := h b (by simp)
    refine ⟨l ++ [b ++ name],fun n hn => ?_,?_⟩
    · rcases List.mem_append.mp hn with hl | hlast
      · exact h n (List.mem_append_left _ hl)
      · rw [List.mem_singleton.mp hlast]
        refine ⟨by simp [hb.nonempty],fun hmem => ?_⟩
        rcases List.mem_append.mp hmem with h₁ | h₂
        · exact hb.noSlash h₁
        · exact hname.noSlash h₂
    · rw [absolute_append,absolute_append,List.append_assoc,List.cons_append]

section

variable (hdev : dev) (inv : TreeInv dev top s) (hd : s.dentries root = some d)
  (hk : d.kind = .simple)
include hdev inv hd hk

theorem initFile_holds (hname : ValidName name) (hplain : Plain name)
    (hfree : childOf s root name = none) (mode : InodeMode) :
    Holds (initFile root d.dPath name mode) s
      (fun _ s' => TreeInv dev top s' ∧
        (∃ children, s'.dentries root = some { d with dChild := children }) ∧
        ∀ a, a ≠ name → childOf s' root a = childOf s root a) E := by
  refine (newInode_holds mode).bind fun inode s₁ h => ?_
  have inv₁ := h.treeInv inv
  have hd₁ : s₁.dentries root = some d := by rw [h.1,hd]
  obtain ⟨l,hvalid,hpath⟩ := inv.paths root d hd
  have ok : Attachable dev top s₁ root name s₁.nextDentry d
      ⟨.device,formatPath name,d.dPath ++ name,inode,some root,∅⟩ := by
    refine attachable_fresh inv₁ hd₁ (by rw [hk]; decide) hname (fun e he => ?_)
      (fun _ => hplain) rfl
      (fun _ => AList.lookup_empty _) (fun _ => hdev) (fun _ => hk) ?_ (fun hne => (hne rfl).elim)
      fun hne => (hne rfl).elim
    · rw [h.childOf_eq,hfree] at he
      cases he
    · rw [hpath]
      exact absolute_append_name hvalid hname
  have hattach := addEntry_attaching inv₁ hd₁ name
    ⟨.device,formatPath name,d.dPath ++ name,inode,some root,∅⟩
  refine holds_ok rfl ⟨hattach.treeInv ok inv₁,⟨_,hattach.parent⟩,fun a ha => ?_⟩
  rw [← h.childOf_eq]
  exact (hattach.childOf_eq ok root a).trans (if_neg fun hc => ha hc.2)

theorem initFiles_holds (hleaf : Leaf s root) {files : List (Str × InodeMode)}
    (hnames : ∀ f ∈ files, ValidName f.1 ∧ Plain f.1) (hnodup : (files.map Prod.fst).Nodup) :
    Holds (initFiles root files) s (fun _ s' => TreeInv dev top s') (Recovers dev top) := by
  refine holds_bind_ok (dentry_eq hd) ?_
  refine (holds_foldlM (fun rest _ t => TreeInv dev top t ∧
    (∃ children, t.dentries root = some { d with dChild := children }) ∧
    (rest.map Prod.fst).Nodup ∧ ∀ f ∈ rest, (ValidName f.1 ∧ Plain f.1) ∧
      childOf t root f.1 = none) ?_ files () s
    ⟨inv,⟨d.dChild,hd⟩,hnodup,fun f hf => ⟨hnames f hf,hleaf f.1⟩⟩).imp fun _ _ h => h.1
  rintro f rest _ t ⟨invt,⟨children,hdt⟩,hnodup,hrest⟩
  obtain ⟨⟨hname,hplain⟩,hfree⟩ := hrest f List.mem_cons_self
  obtain ⟨hnew,hnodup'⟩ := List.nodup_cons.mp hnodup
  refine (initFile_holds hdev invt hdt hk hname hplain hfree f.2).imp ?_
  rintro _ t' ⟨inv',hd',hsame⟩
  refine ⟨inv',hd',hnodup',fun f' hf' => ?_⟩
  obtain ⟨hgood,hfree'⟩ := hrest f' (List.mem_cons_of_mem _ hf')
  refine ⟨hgood,?_⟩
  rw [hsame f'.1,hfree']
  intro heq
  exact hnew (List.mem_map.mpr ⟨f',hf',heq⟩)

end

theorem init_holds (hdev : dev) (inv : Stands dev s)
    (hleaf : ∀ fs r, s.manager.lookup mountPoint = some fs → fs.rootDentry = some r → Leaf s r) :
    Holds (init mountPoint) s (fun _ s' => Stands dev s') (Recovers dev (topOf s)) := by
  refine holds_get ?_
  refine unwrap_bind fun fs hfs => ?_
  split
  · rename_i r htype hr
    obtain ⟨d,hd,-,hsimple⟩ := inv.mounted _ _ _ hfs hr
    exact (initFiles_holds hdev inv hd (hsimple (by rw [htype]; decide)) (hleaf fs r hfs hr)
      (by decide) (by decide)).imp fun _ _ h => stands_of_treeInv h
  · rename_i r htype hr
    obtain ⟨d,hd,-,hsimple⟩ := inv.mounted _ _ _ hfs hr
    exact (initFiles_holds hdev inv hd (hsimple (by rw [htype]; decide)) (hleaf fs r hfs hr)
      (by decide) (by decide)).imp fun _ _ h => stands_of_treeInv h
  · exact stop_after

end Devices

section Unmounting

variable (lw : Lwext4 δ) {q : ℕ} {dq : Dentry}

section

variable (inv : Stands dev s) (h : Mountable (topOf s) s mountPoint)
include inv h

end

end Unmounting

end DuckOs.VfsMounts
