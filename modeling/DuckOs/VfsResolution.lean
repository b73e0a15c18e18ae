import DuckOs.VfsMounts

namespace DuckOs.VfsResolution
open ExecutionRules NamedTrees PathModel VfsModel VfsTrees VfsLookups VfsMounts

variable {δ : Type} {dev : Prop} {s s' : Vfs δ} {E : Fault → Vfs δ → Prop} {path a : Str}
  {top : TreeTop} {lw : Lwext4 δ} {q : ℕ} {dq : Dentry} {l : List Str}

section Disk

def succeeds (x : EStateM VirtMemoryModel.Errno δ Unit) (disk : δ) : Bool :=
  match x disk with
  | .ok _ _ => true
  | .error _ _ => false

def diskAfter (x : EStateM VirtMemoryModel.Errno δ Unit) (disk : δ) : δ :=
  match x disk with
  | .ok _ disk' => disk'
  | .error _ disk' => disk'

/-- Whether `look_up` finds something on the disk. -/
def loadable (lw : Lwext4 δ) (disk : δ) (path : Str) : Bool :=
  if lw.checkInodeExist disk path .regFile then succeeds (lw.fileOpen path false) disk
  else if lw.checkInodeExist disk path .dir then succeeds (lw.dirOpen path) disk
  else lw.checkInodeExist disk path .symlink

/-- The library changes the entry that it is told to: opening changes none, and an entry that was
removed or moved away is gone. -/
structure Exact (lw : Lwext4 δ) : Prop where
  fileOpen : ∀ path disk p,
    loadable lw (diskAfter (lw.fileOpen path false) disk) p = loadable lw disk p
  dirOpen : ∀ path disk p, loadable lw (diskAfter (lw.dirOpen path) disk) p = loadable lw disk p
  rmfile : ∀ path disk disk', lw.rmfile path disk = .ok () disk' → loadable lw disk' path = false
  mvfile : ∀ old new disk disk', old ≠ new → lw.mvfile old new disk = .ok () disk' →
    loadable lw disk' old = false

theorem tryDisk_eq (x : EStateM VirtMemoryModel.Errno δ Unit) :
    tryDisk x s = .ok (succeeds x s.disk) { s with disk := diskAfter x s.disk } := by
  unfold tryDisk succeeds diskAfter
  cases x s.disk <;> rfl

theorem loadInode_loads (hlw : Exact lw) (path : Str) :
    Holds (loadInode lw path) s (fun r s' => SameTree s s' ∧ r.isSome = loadable lw s.disk path ∧
      ∀ p, loadable lw s'.disk p = loadable lw s.disk p) E := by
  have hload : loadable lw s.disk path =
    if lw.checkInodeExist s.disk path .regFile then succeeds (lw.fileOpen path false) s.disk
    else if lw.checkInodeExist s.disk path .dir then succeeds (lw.dirOpen path) s.disk
    else lw.checkInodeExist s.disk path .symlink := rfl
  refine holds_get ?_
  split_ifs with hreg hdir hsym
  · rw [if_pos hreg] at hload
    refine holds_bind_ok (tryDisk_eq _) ?_
    have hdisk := hlw.fileOpen path s.disk
    cases hb : succeeds (lw.fileOpen path false) s.disk with
    | true => exact holds_ok rfl ⟨⟨rfl,rfl,rfl,rfl⟩,by rw [hload,hb]; rfl,hdisk⟩
    | false => exact holds_ok rfl ⟨⟨rfl,rfl,rfl,rfl⟩,by rw [hload,hb]; rfl,hdisk⟩
  · rw [if_neg hreg,if_pos hdir] at hload
    refine holds_bind_ok (tryDisk_eq _) ?_
    have hdisk := hlw.dirOpen path s.disk
    cases hb : succeeds (lw.dirOpen path) s.disk with
    | true => exact holds_ok rfl ⟨⟨rfl,rfl,rfl,rfl⟩,by rw [hload,hb]; rfl,hdisk⟩
    | false => exact holds_ok rfl ⟨⟨rfl,rfl,rfl,rfl⟩,by rw [hload,hb]; rfl,hdisk⟩
  · rw [if_neg hreg,if_neg hdir,hsym] at hload
    exact holds_ok rfl ⟨⟨rfl,rfl,rfl,rfl⟩,by rw [hload]; rfl,fun _ => rfl⟩
  · rw [if_neg hreg,if_neg hdir,eq_false_of_ne_true hsym] at hload
    exact holds_pure ⟨SameTree.refl s,by rw [hload]; rfl,fun _ => rfl⟩

theorem diskAfter_of_quiet {x : EStateM VirtMemoryModel.Errno δ Unit} {disk : δ}
    (h : x disk = .ok () disk ∨ ∃ e, x disk = .error e disk) : diskAfter x disk = disk := by
  unfold diskAfter
  rcases h with h | ⟨e,h⟩ <;> rw [h]

theorem loadable_of_absent {disk : ListDisk} (h : ∀ type, (path, type) ∉ disk) :
    loadable listDisk disk path = false := by
  simp [loadable,listDisk,h]

theorem exact_listDisk : Exact listDisk := by
  refine ⟨fun path disk p => ?_,fun path disk p => ?_,fun path disk disk' h => ?_,
    fun old new disk disk' hne h => ?_⟩
  · rw [diskAfter_of_quiet]
    simp only [listDisk]
    split
    · exact .inl rfl
    · exact .inr ⟨_,rfl⟩
  · rw [diskAfter_of_quiet]
    simp only [listDisk]
    split
    · exact .inl rfl
    · exact .inr ⟨_,rfl⟩
  · change removeEntry path disk = .ok () disk' at h
    unfold removeEntry at h
    split at h
    · cases h
      exact loadable_of_absent fun type => by simp
    · cases h
  · change moveEntry old new disk = .ok () disk' at h
    unfold moveEntry at h
    split at h
    · cases h
      exact loadable_of_absent fun type => by simp [hne]
    · cases h

end Disk

theorem normal_of_cached (inv : TreeInv dev top s) {x : ℕ} (hx : s.cache.lookup path = some x) :
    path = absolute (components path) := by
  obtain ⟨d,hd,hpath,-⟩ := inv.cached path x hx
  obtain ⟨l,hvalid,habs⟩ := inv.paths x d hd
  rw [← hpath,habs,components_absolute hvalid]

section Walks

variable (lw : Lwext4 δ) {e : ℕ}

theorem walkPath_through (hex : ∀ q a c, childOf s q a = some c → ∃ d, s.dentries c = some d) :
    ∀ (names : List Str) (q : ℕ) (cache : StrMap ℕ), (∃ d, s.dentries q = some d) →
    walk (childOf s) q names = some e →
    ∃ cache', ∀ rest, walkPath lw q (names ++ rest) { s with cache := cache } =
      walkPath lw e rest { s with cache := cache' } := by
  intro names
  induction names with
  | nil =>
    intro q cache _ hwalk
    cases hwalk
    exact ⟨cache,fun _ => rfl⟩
  | cons name names ih =>
    intro q cache hq hwalk
    obtain ⟨d,hd⟩ := hq
    obtain ⟨next,hnext,hrest⟩ := Option.bind_eq_some_iff.mp hwalk
    obtain ⟨dn,hdn⟩ := hex q name next hnext
    obtain ⟨cache',hcache'⟩ := ih next (cache.insert dn.dPath next) ⟨dn,hdn⟩ hrest
    refine ⟨cache',fun rest => ?_⟩
    have hdq : dentry q { s with cache := cache } = .ok d { s with cache := cache } := dentry_eq hd
    have hdnext : dentry next { s with cache := cache } = .ok dn { s with cache := cache } :=
      dentry_eq hdn
    have hchild : d.dChild.lookup name = some next := by rw [← childOf_eq hd,hnext]
    rw [List.cons_append,walkPath,bind_ok hdq,hchild]
    dsimp only
    rw [bind_ok hdnext,← hcache' rest]
    rfl

theorem pathToDentry_along {r : ℕ} (hr : rootOf s = some r) (hdr : ∃ d, s.dentries r = some d)
    (hex : ∀ q a c, childOf s q a = some c → ∃ d, s.dentries c = some d)
    (hwalk : walk (childOf s) r l = some q) {rest : List Str} (hp : components path = l ++ rest)
    (hcache : s.cache.lookup path = none) :
    ∃ cache, pathToDentry lw path s = walkPath lw q rest { s with cache := cache } := by
  obtain ⟨cache,hcache'⟩ := walkPath_through lw hex l r s.cache hdr hwalk
  refine ⟨cache,?_⟩
  unfold pathToDentry
  rw [get_bind,hcache]
  dsimp only
  rw [bind_ok (rootDentry_eq hr),hp]
  exact hcache' rest

theorem pathToDentry_through (inv : TreeInv dev top s) (hrooted : rootOf s = top.root)
    (hat : At top s l q) {rest : List Str} (hp : components path = l ++ rest)
    (hcache : s.cache.lookup path = none) :
    ∃ cache, pathToDentry lw path s = walkPath lw q rest { s with cache := cache } := by
  obtain ⟨r,hr,hl⟩ := hat
  obtain ⟨dr,hdr,-⟩ := inv.root r hr
  refine pathToDentry_along lw (hrooted.trans hr) ⟨dr,hdr⟩ (fun q a c hc => ?_) hl.walk_eq hp hcache
  obtain ⟨_,d,_,hd,_⟩ := inv.edge q a c hc
  exact ⟨d,hd⟩

theorem pathToDentry_cached (h : s.cache.lookup path = some e) :
    pathToDentry lw path s = .ok (some e) s := by
  unfold pathToDentry
  rw [get_bind,h]
  rfl

theorem pathToDentry_found (inv : TreeInv dev top s) (hrooted : rootOf s = top.root)
    (hat : At top s (components path) e) (hcache : ∀ x, s.cache.lookup path = some x → x = e) :
    ∃ cache, pathToDentry lw path s = .ok (some e) { s with cache := cache } := by
  cases hc : s.cache.lookup path with
  | some x =>
    obtain rfl := hcache x hc
    exact ⟨s.cache,pathToDentry_cached lw hc⟩
  | none => exact pathToDentry_through lw inv hrooted hat (List.append_nil _).symm hc

theorem pathToDentry_missing (inv : TreeInv dev top s) (hrooted : rootOf s = top.root)
    (hat : At top s l q) (hp : components path = l ++ [a]) (hnone : childOf s q a = none)
    (hcache : s.cache.lookup path = none) :
    ∃ cache, pathToDentry lw path s = lookUp lw q a { s with cache := cache } := by
  obtain ⟨cache,hcache'⟩ := pathToDentry_through lw inv hrooted hat hp hcache
  obtain ⟨dq,hq⟩ := inv.exists_of_at hat
  have hdq : dentry q { s with cache := cache } = .ok dq { s with cache := cache } := dentry_eq hq
  refine ⟨cache,?_⟩
  rw [hcache',walkPath,bind_ok hdq,← childOf_eq hq,hnone]
  dsimp only
  cases hl : lookUp lw q a { s with cache := cache } with
  | error err t => exact bind_error hl
  | ok r t =>
    rw [bind_ok hl]
    cases r <;> rfl

end Walks

theorem lookUp_loads (hlw : Exact lw) (hq : s.dentries q = some dq) (hname : ValidName a)
    (hnone : dq.dChild.lookup a = none) : Holds (lookUp lw q a) s (fun r s' =>
      (r.isSome ↔ dq.kind = .ext4 ∧ loadable lw s.disk (joinName a dq.dPath)) ∧
      ∀ p, loadable lw s'.disk p = loadable lw s.disk p) E := by
  refine holds_bind_ok (dentry_eq hq) ?_
  cases hkind : dq.kind with
  | device => exact holds_pure ⟨by simp,fun _ => rfl⟩
  | simple => exact holds_pure ⟨by simp [hnone],fun _ => rfl⟩
  | ext4 =>
    rw [hnone]
    refine holds_bind_ok (cwdAndName_eq hname _) ?_
    refine (loadInode_loads hlw _).bind ?_
    rintro r s₁ ⟨-,hr,hdisk⟩
    cases r with
    | none => exact holds_pure ⟨by simp [← hr],hdisk⟩
    | some inode => exact holds_ok rfl ⟨by simp [← hr],hdisk⟩

theorem pathToDentry_loads (hlw : Exact lw) (inv : TreeInv dev top s)
    (hrooted : rootOf s = top.root)
    (hat : At top s l q) (hp : components path = l ++ [a]) (hq : s.dentries q = some dq)
    (hnone : childOf s q a = none) (hcache : s.cache.lookup path = none) :
    ∃ r t, pathToDentry lw path s = .ok r t ∧
      (r.isSome ↔ dq.kind = .ext4 ∧ loadable lw s.disk (joinName a dq.dPath)) := by
  obtain ⟨cache,hlook⟩ := pathToDentry_missing lw inv hrooted hat hp hnone hcache
  obtain ⟨r,t,hr,hsome,-⟩ := (lookUp_loads hlw (s := { s with cache := cache })
    (E := Never Fault (Vfs δ)) hq (validName_of_mem_components (p := path) (by simp [hp]))
    ((childOf_eq hq a).symm.trans hnone)).returns
  exact ⟨r,t,hlook.trans hr,hsome⟩

end DuckOs.VfsResolution
