import DuckOs.FileCreation

namespace DuckOs.MountRoundTrip
open ExecutionRules NamedTrees PathModel VfsModel VfsTrees VfsLookups VfsMounts VfsResolution
  LookupEffects FileCreation Function

variable {δ : Type} {dev : Prop} {lw : Lwext4 δ} {s s' : Vfs δ} {m a : Str} {l : List Str} {q e : ℕ}
  {fsType : FSType} {dq : Dentry}

variable {id r n k : ℕ} {d d' : Dentry} {path : Str} {R : Dentry → Dentry → Prop}
  {o o' : Option Dentry} {α : Type}

def shift (n k id : ℕ) : ℕ := if id < n then id else id + k

theorem shift_old (h : id < n) : shift n k id = id := if_pos h

theorem shift_new (h : n ≤ id) : shift n k id = id + k := if_neg (not_lt.mpr h)

theorem shift_injective : Injective (shift n k) := by
  intro id id' h
  unfold shift at h
  split at h <;> split at h <;> omega

structure Alike (n k : ℕ) (d d' : Dentry) : Prop where
  kind : d'.kind = d.kind
  path : d'.dPath = d.dPath
  children : ∀ name, d'.dChild.lookup name = (d.dChild.lookup name).map (shift n k)

structure Renumbered (n k : ℕ) (s s' : Vfs δ) : Prop where
  start : n ≤ s.nextDentry
  next : s'.nextDentry = s.nextDentry + k
  disk : s'.disk = s.disk
  entries : ∀ id, Option.Rel (Alike n k) (s.dentries id) (s'.dentries (shift n k id))

theorem Renumbered.shift_next (h : Renumbered n k s s') :
    shift n k s.nextDentry = s'.nextDentry := (shift_new h.start).trans h.next.symm

theorem rel_update {f f' : ℕ → Option Dentry} (h : ∀ id, Option.Rel R (f id) (f' (shift n k id)))
    (ho : Option.Rel R o o') (q id : ℕ) : Option.Rel R (update f q o id)
      (update f' (shift n k q) o' (shift n k id)) := by
  by_cases hid : id = q
  · rw [hid,update_self,update_self]
    exact ho
  · rw [update_of_ne hid,update_of_ne (shift_injective.ne hid)]
    exact h id

theorem rel_map {f f' : Dentry → Dentry} (h : Option.Rel R o o')
    (hf : ∀ d d', R d d' → R (f d) (f' d')) : Option.Rel R (o.map f) (o'.map f') := by
  cases h with
  | some h => exact .some (hf _ _ h)
  | none => exact .none

theorem Alike.insertChild (h : Alike n k d d') (name : Str) (c : ℕ) :
    Alike n k { d with dChild := d.dChild.insert name c }
      { d' with dChild := d'.dChild.insert name (shift n k c) } := by
  refine ⟨h.kind,h.path,fun name' => ?_⟩
  by_cases hname : name' = name
  · subst hname
    rw [AList.lookup_insert,AList.lookup_insert,Option.map_some]
  · rw [AList.lookup_insert_ne hname,AList.lookup_insert_ne hname,h.children name']

theorem Renumbered.addEntry (h : Renumbered n k s s') (q : ℕ) (name : Str)
    (halike : Alike n k d d') :
    Renumbered n k ((addEntry s d).insertChild q name s.nextDentry)
      ((addEntry s' d').insertChild (shift n k q) name s'.nextDentry) := by
  refine ⟨h.start.trans (Nat.le_succ _),?_,h.disk,?_⟩
  · change s'.nextDentry + 1 = s.nextDentry + 1 + k
    rw [h.next]
    omega
  · have hadded := rel_update h.entries (.some halike) s.nextDentry
    rw [h.shift_next] at hadded
    refine rel_update hadded ?_ q
    exact rel_map (hadded q) fun _ _ hq => h.shift_next ▸ hq.insertChild name s.nextDentry

theorem unwrap_inStep {R : α → α → Prop} {o o' : Option α} (h : Option.Rel R o o') :
    InStep (unwrap o) (unwrap o') s s' fun a a' t t' => R a a' ∧ t = s ∧ t' = s' := by
  cases h with
  | some h => exact ⟨h,rfl,rfl⟩
  | none => exact rfl

theorem dentry_inStep (h : Renumbered n k s s') (id : ℕ) :
    InStep (dentry id) (dentry (shift n k id)) s s'
      fun d d' t t' => Alike n k d d' ∧ t = s ∧ t' = s' :=
  unwrap_inStep (h.entries id)

theorem tryDisk_inStep (h : Renumbered n k s s') (x : EStateM VirtMemoryModel.Errno δ Unit) :
    InStep (tryDisk x) (tryDisk x) s s' fun b b' t t' => b' = b ∧ Renumbered n k t t' := by
  unfold InStep tryDisk
  rw [h.disk]
  cases x s.disk with
  | ok _ disk => exact ⟨rfl,h.start,h.next,rfl,h.entries⟩
  | error _ disk => exact ⟨rfl,h.start,h.next,rfl,h.entries⟩

theorem newInode_inStep (h : Renumbered n k s s') (mode : InodeMode) :
    InStep (some <$> newInode mode) (some <$> newInode mode) s s'
      fun r r' t t' => r'.isSome = r.isSome ∧ Renumbered n k t t' :=
  ⟨rfl,h.start,h.next,h.disk,h.entries⟩

theorem loadInode_inStep (h : Renumbered n k s s') (path : Str) :
    InStep (loadInode lw path) (loadInode lw path) s s'
      fun r r' t t' => r'.isSome = r.isSome ∧ Renumbered n k t t' := by
  have htry : ∀ x mode, InStep
      (do if ← tryDisk x then some <$> newInode mode else pure none : Fs δ (Option ℕ))
      (do if ← tryDisk x then some <$> newInode mode else pure none : Fs δ (Option ℕ)) s s'
      fun r r' t t' => r'.isSome = r.isSome ∧ Renumbered n k t t' := by
    intro x mode
    refine (tryDisk_inStep h x).bind ?_
    rintro _ b t t' ⟨rfl,ht⟩
    cases b with
    | true => exact newInode_inStep ht mode
    | false => exact ⟨rfl,ht⟩
  have hget : ∀ t : Vfs δ, (get : Fs δ (Vfs δ)) t = .ok t t := fun _ => rfl
  refine InStep.bind (inStep_ok (hget s) (hget s') ⟨rfl,rfl,rfl,rfl⟩ :
    InStep _ _ s s' fun t t' u u' => t = s ∧ t' = s' ∧ u = s ∧ u' = s') ?_
  rintro _ _ _ _ ⟨rfl,rfl,rfl,rfl⟩
  rw [h.disk]
  split
  · exact htry _ _
  · split
    · exact htry _ _
    · split
      · exact newInode_inStep h .Link
      · exact ⟨rfl,h⟩

theorem cwdAndName_inStep (name cwd : Str) :
    InStep (cwdAndName name cwd) (cwdAndName name cwd) s s'
      fun p p' t t' => p' = p ∧ t = s ∧ t' = s' := by
  unfold cwdAndName
  split
  · exact inStep_error rfl rfl
  · exact inStep_ok rfl rfl ⟨rfl,rfl,rfl⟩

theorem lookUp_inStep (h : Renumbered n k s s') (q : ℕ) (name : Str) :
    InStep (lookUp lw q name) (lookUp lw (shift n k q) name) s s'
      fun r r' t t' => r' = r.map (shift n k) ∧ Renumbered n k t t' := by
  refine (dentry_inStep h q).bind ?_
  rintro d d' _ _ ⟨halike,rfl,rfl⟩
  rw [halike.kind,halike.children name]
  split
  · exact ⟨rfl,h⟩
  · exact ⟨rfl,h⟩
  · cases d.dChild.lookup name with
    | some c => exact ⟨rfl,h⟩
    | none =>
      rw [halike.path]
      refine (cwdAndName_inStep name d.dPath).bind ?_
      rintro _ path _ _ ⟨rfl,rfl,rfl⟩
      refine (loadInode_inStep h path).bind ?_
      rintro r r' t t' ⟨hsome,ht⟩
      cases r with
      | none =>
        obtain rfl : r' = none := by simpa using hsome
        exact ⟨rfl,ht⟩
      | some inode =>
        obtain ⟨inode',rfl⟩ := Option.isSome_iff_exists.mp hsome
        have hadded := ht.addEntry q name (⟨rfl,rfl,fun _ => rfl⟩ :
          Alike n k ⟨.ext4,formatPath name,path,inode,some q,∅⟩
            ⟨.ext4,formatPath name,path,inode',some (shift n k q),∅⟩)
        exact ⟨congrArg some ht.shift_next.symm,hadded.start,hadded.next,hadded.disk,
          hadded.entries⟩

theorem walkPath_inStep (lw : Lwext4 δ) : ∀ (names : List Str) (q : ℕ) (s s' : Vfs δ),
    Renumbered n k s s' → InStep (walkPath lw q names) (walkPath lw (shift n k q) names) s s'
      fun r r' t t' => r' = r.map (shift n k) ∧ Renumbered n k t t' := by
  intro names
  induction names with
  | nil => exact fun q s s' h => ⟨rfl,h⟩
  | cons name rest ih =>
    intro q s s' h
    refine (dentry_inStep h q).bind ?_
    rintro d d' _ _ ⟨halike,rfl,rfl⟩
    rw [halike.children name]
    cases d.dChild.lookup name with
    | some next =>
      refine (dentry_inStep h next).bind ?_
      rintro dn dn' t t' ⟨-,rfl,rfl⟩
      exact ih next (t.cacheInsert dn.dPath next) (t'.cacheInsert dn'.dPath (shift n k next))
        ⟨h.start,h.next,h.disk,h.entries⟩
    | none =>
      refine (lookUp_inStep h q name).bind ?_
      rintro r _ t t' ⟨rfl,ht⟩
      cases r with
      | none => exact ⟨rfl,ht⟩
      | some next => exact ih next t t' ht

def ending : EStateM.Result Fault (Vfs δ) (Option ℕ) → Except Fault (Option ℕ)
  | .ok r _ => .ok r
  | .error e _ => .error e

def resolve (lw : Lwext4 δ) (path : Str) (s : Vfs δ) : Except Fault (Option ℕ) :=
  ending (pathToDentry lw path s)

def SamePaths (lw : Lwext4 δ) (s s' : Vfs δ) : Prop := ∀ path, resolve lw path s' =
  (resolve lw path s).map (Option.map (shift s.nextDentry (s'.nextDentry - s.nextDentry)))

/-- Both calls return, and the second has undone the first. -/
def Undone (lw : Lwext4 δ) (m : Str) (fsType : FSType) (s : Vfs δ) : Prop :=
  ∃ depth s₁ s₂, mount lw depth m false fsType s = .ok () s₁ ∧ unmount m s₁ = .ok () s₂ ∧
    SamePaths lw s s₂

/-- The path of a directory other than the root, with its last name. -/
structure Canonical (m : Str) (l : List Str) (a : Str) : Prop where
  path : m = absolute (l ++ [a])
  valid : ∀ name ∈ l ++ [a], ValidName name

/-- The cache has a device under the path. -/
def DeviceCached (s : Vfs δ) (path : Str) : Prop :=
  ∃ q d, s.cache.lookup path = some q ∧ s.dentries q = some d ∧ d.kind = .device

theorem leadsTo_iff_resolve : LeadsTo lw s path e ↔ resolve lw path s = .ok (some e) := by
  unfold LeadsTo resolve
  cases pathToDentry lw path s <;> simp [ending]

theorem SamePaths.leadsTo (h : SamePaths lw s s') (he : e < s.nextDentry)
    (hlead : LeadsTo lw s m e) : LeadsTo lw s' m e := by
  rw [leadsTo_iff_resolve] at hlead ⊢
  rw [h m,hlead,Except.map,Option.map_some,shift_old he]

theorem ending_inStep {x y : Fs δ (Option ℕ)}
    (h : InStep x y s s' fun r r' t t' => r' = r.map (shift n k) ∧ Renumbered n k t t') :
    ending (y s') = (ending (x s)).map (Option.map (shift n k)) := by
  unfold InStep at h
  cases hx : x s <;> cases hy : y s' <;> rw [hx,hy] at h
  · rw [ending,ending,h.1]
    rfl
  · exact h.elim
  · exact h.elim
  · rw [ending,ending,h]
    rfl

theorem pathToDentry_cold (hcold : s.cache.lookup path = none)
    (hr : rootOf s = some r) :
    pathToDentry lw path s = walkPath lw r (PathModel.components path) s := by
  unfold pathToDentry
  rw [get_bind,hcold]
  exact bind_ok (rootDentry_eq hr)

theorem Canonical.components (h : Canonical m l a) : components m = l ++ [a] := by
  rw [h.path,components_absolute h.valid]

theorem Canonical.parent_ne (h : Canonical m l a) : parentPath m ≠ m := by
  intro heq
  have hlen := congrArg (fun p => (PathModel.components p).length) heq
  simp only [components_parentPath h.components,h.components,List.length_append,
    List.length_singleton] at hlen
  omega

theorem Canonical.ne_root (h : Canonical m l a) : m ≠ ['/'] := by
  intro heq
  have hcomp := h.components
  rw [heq,show PathModel.components ['/'] = [] by decide] at hcomp
  simp at hcomp

abbrev mnt : Str := ['/', 'm', 'n', 't']

structure Returned (s : Vfs δ) (m : Str) (q : ℕ) (s' : Vfs δ) : Prop where
  parent : ∀ d, s.dentries q = some d →
    s'.dentries q = some { d with dChild := d.dChild.erase (dentryName m) }
  root : s'.dentries s.nextDentry = some (newRoot s m q)
  others : ∀ id, id ≠ q → id ≠ s.nextDentry → s'.dentries id = s.dentries id
  next : s'.nextDentry = s.nextDentry + 1
  disk : s'.disk = s.disk
  cache : ∀ p, s'.cache.lookup p =
    if p = m then if m = mnt then some s.nextDentry else none else s.cache.lookup p
  manager : s.manager.lookup m = none → s'.manager = s.manager

theorem erase_insert (t : StrMap α) (a : Str) (b : α) : (t.insert a b).erase a = t.erase a := by
  refine AList.ext ?_
  change List.kerase a (t.insert a b).entries = List.kerase a t.entries
  exact List.kerase_cons_eq rfl

def unmounted (s : Vfs δ) (m : Str) (q : ℕ) (fsType : FSType) (cache : StrMap ℕ) : Vfs δ :=
  { (mounted s m q fsType).removeChild q (dentryName m) with
    cache := cache
    manager := (s.manager.insert m ⟨fsType, some s.nextDentry⟩).erase m }

theorem unmounted_returned (hfresh : q ≠ s.nextDentry) {cache : StrMap ℕ}
    (hcache : ∀ p, cache.lookup p =
      if p = m then if m = mnt then some s.nextDentry else none else s.cache.lookup p) :
    Returned s m q (unmounted s m q fsType cache) := by
  have hothers : ∀ id, id ≠ q → (unmounted s m q fsType cache).dentries id =
      (addEntry (withInode s .Directory) (newRoot s m q)).dentries id := fun id hid =>
    (update_of_ne hid _ _).trans (update_of_ne hid _ _)
  refine ⟨fun d hd => ?_,?_,fun id hid hnew => ?_,rfl,rfl,hcache,fun hnone =>
    (erase_insert _ _ _).trans (erase_absent hnone)⟩
  · have hbefore : (addEntry (withInode s .Directory) (newRoot s m q)).dentries q = some d :=
      (update_of_ne hfresh _ _).trans hd
    have hmounted : (mounted s m q fsType).dentries q = some { d with
        dChild := d.dChild.insert (dentryName m) s.nextDentry } := by
      refine (update_self _ _ _).trans ?_
      rw [hbefore]
      rfl
    refine (update_self _ _ _).trans ?_
    rw [hmounted]
    exact congrArg (fun t => some { d with dChild := t }) (erase_insert _ _ _)
  · rw [hothers _ hfresh.symm]
    exact update_self _ _ _
  · rw [hothers id hid]
    exact update_of_ne hnew _ _

theorem unmount_returns (fsType : FSType) (hpm : parentPath m ≠ m) (hfresh : q ≠ s.nextDentry)
    (hparent : s.cache.lookup (parentPath m) = some q) :
    ∃ s', unmount m (mounted s m q fsType) = .ok () s' ∧ Returned s m q s' := by
  have hfs : (mounted s m q fsType).manager.lookup m = some ⟨fsType,some s.nextDentry⟩ :=
    AList.lookup_insert _
  have hcached : (mounted s m q fsType).cache.lookup (parentPath m) = some q :=
    (AList.lookup_insert_ne hpm).trans hparent
  unfold unmount
  rw [bind_ok (rfl : (get : Fs δ (Vfs δ)) (mounted s m q fsType) = .ok _ _),hfs]
  rw [hcached]
  by_cases hmnt : m = mnt
  · refine ⟨unmounted s m q fsType (s.cache.insert m s.nextDentry),?_,
      unmounted_returned hfresh fun p => ?_⟩
    · dsimp only
      rw [bind_ok (rfl : (modify _ : Fs δ Unit) (mounted s m q fsType) = .ok () _),
        if_neg (not_not.mpr hmnt)]
      rfl
    · rw [if_pos hmnt,lookup_inserted]
  · refine ⟨unmounted s m q fsType ((s.cache.insert m s.nextDentry).erase m),?_,
      unmounted_returned hfresh fun p => ?_⟩
    · dsimp only
      rw [bind_ok (rfl : (modify _ : Fs δ Unit) (mounted s m q fsType) = .ok () _),if_pos hmnt]
      rfl
    · rw [if_neg hmnt,erase_insert,lookup_erased]

section After

theorem Returned.childOf_other (h : Returned s m q s') (u : Usable dev s) (hid : id ≠ q)
    (name : Str) : childOf s' id name = childOf s id name := by
  by_cases hnew : id = s.nextDentry
  · rw [hnew,childOf_eq h.root,childOf_none (u.tree.fresh _ le_rfl)]
    rfl
  · unfold childOf
    rw [h.others id hid hnew]

theorem Returned.childOf_parent (h : Returned s m q s') (hq : s.dentries q = some dq) (name : Str) :
    childOf s' q name = if name = dentryName m then none else childOf s q name := by
  rw [childOf_eq (h.parent dq hq),childOf_eq hq]
  exact lookup_erased dq.dChild (dentryName m) name

theorem Returned.exists_kept (h : Returned s m q s')
    (hd : s.dentries id = some d) (hfresh : id ≠ s.nextDentry) :
      ∃ d', s'.dentries id = some d' := by
  by_cases hid : id = q
  · subst hid
    exact ⟨_,h.parent d hd⟩
  · exact ⟨d,(h.others id hid hfresh).trans hd⟩

theorem Usable.old (u : Usable dev s) (hd : s.dentries id = some d) :
    id < s.nextDentry := by
  by_contra hge
  rw [u.tree.fresh id (not_lt.mp hge)] at hd
  cases hd

theorem Returned.edges (h : Returned s m q s') (u : Usable dev s) (hq : s.dentries q = some dq)
    {c : ℕ} {name : Str} (hedge : childOf s' id name = some c) : childOf s id name = some c := by
  by_cases hid : id = q
  · subst hid
    rw [h.childOf_parent hq] at hedge
    split at hedge
    · cases hedge
    · exact hedge
  · rwa [h.childOf_other u hid] at hedge

theorem Returned.rootOf_eq (h : Returned s m q s') (hfree : s.manager.lookup m = none) :
    rootOf s' = rootOf s := by
  unfold rootOf
  rw [h.manager hfree]

theorem lookUp_new (hq : s.dentries q = some dq) (hnone : dq.dChild.lookup a = none) :
    Holds (lookUp lw q a) s (fun r _ => ∀ c, r = some c → c = s.nextDentry) Panics := by
  refine holds_bind_ok (dentry_eq hq) ?_
  split
  · exact holds_pure fun _ hc => by cases hc
  · exact holds_pure fun _ hc => by rw [hnone] at hc; cases hc
  · rw [hnone]
    refine cwdAndName_bind fun path _ _ => ?_
    refine (loadInode_holds lw path).bind ?_
    rintro _ _ ⟨disk,⟨rfl,rfl⟩ | ⟨mode,rfl,rfl⟩⟩
    · exact holds_pure fun _ hc => by cases hc
    · exact holds_ok rfl fun _ hc => (Option.some.inj hc).symm

theorem walkPath_new (hq : s.dentries q = some dq) (hnone : dq.dChild.lookup a = none) :
    Holds (walkPath lw q [a]) s (fun r _ => ∀ c, r = some c → c = s.nextDentry) Panics := by
  refine holds_bind_ok (dentry_eq hq) ?_
  rw [hnone]
  refine (lookUp_new hq hnone).bind ?_
  rintro r t hr
  cases r with
  | none => exact holds_pure hr
  | some c => exact holds_pure hr

theorem Returned.lost (h : Returned s m q s') (u : Usable dev s) (hcanon : Canonical m l a)
    (hfree : s.manager.lookup m = none) (hparent : s.cache.lookup (parentPath m) = some q)
    (hq : s.dentries q = some dq) (hk : dq.kind ≠ .device) (hmnt : m ≠ mnt)
      (he : e < s.nextDentry) :
    ¬ LeadsTo lw s' m e := by
  have hat := u.tree.at_of_cached hparent hq hk
  rw [components_parentPath hcanon.components] at hat
  have honly : ∀ l', At (looseTop s) s l' q → l' = l := fun l' hl' => by
    rw [← u.tree.components_of_at hl' hq hk,u.tree.components_of_at hat hq hk]
  obtain ⟨r,hr,hlink⟩ := hat
  have hlink' : Linked (childOf s') r l q := hlink.without_edges
    (fun l' hl' => by rw [honly l' ⟨r,hr,hl'⟩]) fun p a c hedge hp => by
      rwa [h.childOf_other u hp]
  have hexists : ∀ p a c, childOf s' p a = some c → ∃ d, s'.dentries c = some d := by
    intro p a c hedge
    obtain ⟨_,dc,_,hdc,_⟩ := u.tree.edge p a c (h.edges u hq hedge)
    exact h.exists_kept hdc (Usable.old u hdc).ne
  obtain ⟨dr,hdr,-⟩ := u.tree.root r hr
  obtain ⟨cache,hthrough⟩ := walkPath_through lw hexists l r s'.cache
    (h.exists_kept hdr (Usable.old u hdr).ne) hlink'.walk_eq
  have hcold : s'.cache.lookup m = none := by rw [h.cache,if_pos rfl,if_neg hmnt]
  have hwalk : pathToDentry lw m s' = walkPath lw q [a] { s' with cache := cache } := by
    rw [pathToDentry_cold hcold ((h.rootOf_eq hfree).trans hr),hcanon.components]
    exact hthrough [a]
  rintro ⟨t,ht⟩
  rw [hwalk] at ht
  have hnone : (dq.dChild.erase (dentryName m)).lookup a = none := by
    rw [dentryName_append hcanon.components,AList.lookup_erase]
  have hnew := (walkPath_new (s := { s' with cache := cache })
    (h.parent dq hq) hnone).of_ok ht e rfl
  have hnext : e = s'.nextDentry := hnew
  rw [h.next] at hnext
  omega

theorem Usable.leaf_of_device (u : Usable dev s) (hq : s.dentries q = some dq)
    (hk : dq.kind = .device) : Leaf s q := by
  intro name
  by_contra hne
  obtain ⟨c,hc⟩ := Option.ne_none_iff_exists'.mp hne
  obtain ⟨dq',_,hq',_,hkq,_⟩ := u.tree.edge q name c hc
  cases hq.symm.trans hq'
  exact hkq hk

theorem Returned.dentries_old (h : Returned s m q s') (hq : s.dentries q = some dq)
    (hleaf : Leaf s q) (hnew : id ≠ s.nextDentry) : s'.dentries id = s.dentries id := by
  by_cases hid : id = q
  · subst hid
    rw [h.parent dq hq,hq,erase_absent ((childOf_eq hq _).symm.trans (hleaf _))]
  · exact h.others id hid hnew

theorem Returned.renumbered (h : Returned s m q s') (u : Usable dev s) (hq : s.dentries q = some dq)
    (hleaf : Leaf s q) : Renumbered s.nextDentry 1 s s' := by
  refine ⟨le_rfl,h.next,h.disk,fun id => ?_⟩
  by_cases hid : id < s.nextDentry
  · rw [shift_old hid,h.dentries_old hq hleaf hid.ne]
    cases hd : s.dentries id with
    | none => exact .none
    | some d =>
      refine .some ⟨rfl,rfl,fun name => ?_⟩
      cases hc : d.dChild.lookup name with
      | none => rfl
      | some c =>
        obtain ⟨_,dc,_,hdc,_⟩ := u.tree.edge id name c ((childOf_eq hd name).trans hc)
        rw [Option.map_some,shift_old (Usable.old u hdc)]
  · rw [shift_new (not_lt.mp hid),h.dentries_old hq hleaf (by omega),u.tree.fresh id (by omega),
      u.tree.fresh (id + 1) (by omega)]
    exact .none

end After

section Results

theorem Returned.kept_mnt (h : Returned s m q s') (hmnt : m = mnt) (he : e < s.nextDentry) :
    ¬ LeadsTo lw s' m e := by
  have hcache : s'.cache.lookup m = some s.nextDentry := by rw [h.cache,if_pos rfl,if_pos hmnt]
  rintro ⟨t,ht⟩
  rw [pathToDentry_cached lw hcache] at ht
  cases ht
  omega

theorem Returned.resolve_cold (h : Returned s m q s') (u : Usable dev s)
    (hfree : s.manager.lookup m = none) (hq : s.dentries q = some dq) (hleaf : Leaf s q)
      (hcold : s'.cache.lookup path = none) (hr : rootOf s = some r) :
    resolve lw path s' =
      (ending (walkPath lw r (components path) s)).map (Option.map (shift s.nextDentry 1)) := by
  obtain ⟨dr,hdr,-⟩ := u.tree.root r hr
  have hstep := walkPath_inStep lw (components path) r s s' (h.renumbered u hq hleaf)
  rw [shift_old (Usable.old u hdr)] at hstep
  rw [resolve,pathToDentry_cold hcold ((h.rootOf_eq hfree).trans hr)]
  exact ending_inStep hstep

theorem old_of_shift {x : Except Fault (Option ℕ)} (he : e < n)
    (h : x.map (Option.map (shift n 1)) = .ok (some e)) : x = .ok (some e) := by
  match x, h with
  | .ok (some c), h =>
    simp only [Except.map,Option.map_some,Except.ok.injEq,Option.some.injEq] at h
    unfold shift at h
    split at h
    · rw [h]
    · omega

theorem root_of_found {t : Vfs δ} (hcold : s.cache.lookup path = none)
    (h : pathToDentry lw path s = .ok (some e) t) : ∃ r, rootOf s = some r := by
  unfold pathToDentry at h
  rw [get_bind,hcold] at h
  obtain ⟨r,_,hroot,-⟩ := bind_eq_ok h
  exact ⟨r,(rootDentry_panics.of_ok hroot).2⟩

theorem walkPath_at (u : Usable dev s) (hr : rootOf s = some r)
    (he : s.dentries e = some d) (h : ending (walkPath lw r (components path) s) = .ok (some e)) :
    At (looseTop s) s (components path) e := by
  cases hwalk : walkPath lw r (components path) s with
  | error _ _ =>
    rw [hwalk] at h
    cases h
  | ok found t =>
    rw [hwalk] at h
    cases h
    obtain ⟨⟨-,hg,hfound⟩,-⟩ := (walkPath_keeps lw kept_true u.tree ⟨r,hr,.root⟩
      (fun _ hname => ⟨validName_of_mem_components hname,False.elim⟩) trivial).of_ok hwalk
    exact hg.at_before u.tree ((hfound e).mp rfl) he

theorem walkPath_of_at (u : Usable dev s) (hr : rootOf s = some r)
    (hat : At (looseTop s) s (components path) e) :
    ending (walkPath lw r (components path) s) = .ok (some e) := by
  have hexists : ∀ p a c, childOf s p a = some c → ∃ d, s.dentries c = some d := fun p a c hc => by
    obtain ⟨_,d,_,hd,_⟩ := u.tree.edge p a c hc
    exact ⟨d,hd⟩
  obtain ⟨dr,hdr,-⟩ := u.tree.root r hr
  obtain ⟨cache,hthrough⟩ := walkPath_through lw hexists (components path) r s.cache ⟨dr,hdr⟩
    (hat.walk_eq hr)
  have hwalk := hthrough []
  rw [List.append_nil] at hwalk
  exact congrArg ending hwalk

theorem Returned.samePaths_iff (h : Returned s m q s') (u : Usable dev s)
    (hcanon : Canonical m l a) (hfree : s.manager.lookup m = none)
    (hparent : s.cache.lookup (parentPath m) = some q) (hq : s.dentries q = some dq)
    (hlead : LeadsTo lw s m e) (hd : s.dentries e = some d) : SamePaths lw s s' ↔
      m ≠ mnt ∧ dq.kind = .device ∧ At (looseTop s) s (components m) e := by
  have he := Usable.old u hd
  by_cases hmnt : m = mnt
  · exact ⟨fun hsame => (h.kept_mnt hmnt he (hsame.leadsTo he hlead)).elim,
      fun hall => (hall.1 hmnt).elim⟩
  by_cases hk : dq.kind = .device
  · have hleaf := Usable.leaf_of_device u hq hk
    have hcold : s'.cache.lookup m = none := by rw [h.cache,if_pos rfl,if_neg hmnt]
    constructor
    · intro hsame
      obtain ⟨t,ht⟩ := hsame.leadsTo he hlead
      obtain ⟨r,hr⟩ := root_of_found hcold ht
      rw [h.rootOf_eq hfree] at hr
      have hend : resolve lw m s' = .ok (some e) := leadsTo_iff_resolve.mp ⟨t,ht⟩
      rw [h.resolve_cold u hfree hq hleaf hcold hr] at hend
      exact ⟨hmnt,hk,walkPath_at u hr hd (old_of_shift he hend)⟩
    · rintro ⟨-,-,hat⟩ path
      obtain ⟨r,hr,-⟩ := id hat
      rw [h.next,Nat.add_sub_cancel_left]
      by_cases hp : path = m
      · rw [hp,h.resolve_cold u hfree hq hleaf hcold hr,walkPath_of_at u hr hat,
          leadsTo_iff_resolve.mp hlead]
      · have hcache : s'.cache.lookup path = s.cache.lookup path := by rw [h.cache,if_neg hp]
        cases hx : s.cache.lookup path with
        | none =>
          rw [h.resolve_cold u hfree hq hleaf (hcache.trans hx) hr]
          rw [resolve,pathToDentry_cold hx hr]
        | some x =>
          obtain ⟨dx,hdx,-⟩ := u.tree.cached path x hx
          rw [resolve,resolve,pathToDentry_cached lw hx,pathToDentry_cached lw (hcache.trans hx)]
          exact congrArg (fun e => Except.ok (some e)) (shift_old (Usable.old u hdx)).symm
  · exact ⟨fun hsame => (h.lost u hcanon hfree hparent hq hk hmnt he (hsame.leadsTo he hlead)).elim,
      fun hall => (hk hall.2.1).elim⟩

theorem loose_dev (inv : Stands False s) : Stands dev s :=
  ⟨inv.fresh,fun id d hd hk => (inv.devices id d hd hk).elim,inv.paths,inv.edge,inv.root,
    inv.mounted,inv.rooted,inv.managed,inv.cached⟩

def checked (s : Vfs δ) : Bool := (List.range s.nextDentry).all fun id =>
    (s.dentries id).all fun d =>
  d.dInode < s.nextInode && (s.inodes d.dInode).isSome && d.dChild.entries.all fun entry =>
    (s.dentries entry.2).all fun c => c.kind ≠ .device || c.dPath = d.dPath ++ entry.1

theorem usable_of_checked (inv : Stands dev s) (h : checked s = true) : Usable dev s := by
  have hall : ∀ id d, s.dentries id = some d →
      (d.dInode < s.nextInode ∧ ∃ i, s.inodes d.dInode = some i) ∧
      ∀ name c dc, d.dChild.lookup name = some c → s.dentries c = some dc → dc.kind = .device →
        dc.dPath = d.dPath ++ name := by
    intro id d hd
    have hlt : id < s.nextDentry := by
      by_contra hge
      rw [inv.fresh id (not_lt.mp hge)] at hd
      cases hd
    have hid := List.all_eq_true.mp h id (List.mem_range.mpr hlt)
    rw [hd,Option.all_some,Bool.and_eq_true,Bool.and_eq_true,decide_eq_true_eq,
      Option.isSome_iff_exists] at hid
    refine ⟨hid.1,fun name c dc hc hdc hk => ?_⟩
    have hentry := List.all_eq_true.mp hid.2 ⟨name,c⟩ (AList.mem_lookup_iff.mp hc)
    simpa [hdc,hk] using hentry
  refine ⟨loose_of_stands inv,fun id d hd => (hall id d hd).1,?_⟩
  intro q a c dq dc hedge hq hc hk
  exact (hall q dq hq).2 a c dc ((childOf_eq hq a).symm.trans hedge) hc hk

abbrev devPath : Str := ['/', 'd', 'e', 'v']

abbrev devzero : Str := ['/', 'd', 'e', 'v', 'z', 'e', 'r', 'o']

abbrev inDevzero : Str := ['/', 'd', 'e', 'v', 'z', 'e', 'r', 'o', '/', 'x']

abbrev shadowedDisk : ListDisk := [(devPath, .dir), (devzero, .dir), (inDevzero, .dir)]

def Shadowed (s : Vfs ListDisk) : Prop :=
  checked s = true ∧ rootOf s = some 0 ∧
  walk (childOf s) 0 [['d', 'e', 'v', 'z', 'e', 'r', 'o'], ['x']] = some 3 ∧
  (s.dentries 3).map (fun d => d.dInode) = some 3 ∧
  (s.inodes 3).map (fun i => i.iMode) = some .Directory ∧
  s.manager.lookup inDevzero = none ∧ s.cache.lookup inDevzero = some 3 ∧
  s.cache.lookup devzero = some 5 ∧ (s.dentries 5).map (fun d => d.kind) = some .device

instance decidableShadowed (s : Vfs ListDisk) : Decidable (Shadowed s) :=
  inferInstanceAs (Decidable (_ ∧ _ ∧ _ ∧ _ ∧ _ ∧ _ ∧ _ ∧ _ ∧ _))

theorem boot_shadowed : ∃ s₀ s₁ s : Vfs ListDisk,
    mount listDisk 3 ['/'] true .EXT4 (Vfs.cold shadowedDisk) = .ok () s₀ ∧
    mount listDisk 3 devPath false .DevFs s₀ = .ok () s₁ ∧ init devPath s₁ = .ok () s ∧
    Stands True s ∧ Shadowed s := by
  have hrun : returnsWith (mount listDisk 3 ['/'] true .EXT4) (Vfs.cold shadowedDisk) (fun _ s₀ =>
      childless s₀ (components devPath) &&
      returnsWith (mount listDisk 3 devPath false .DevFs) s₀ fun _ s₁ =>
        ((s₁.manager.lookup devPath).all fun fs => fs.rootDentry.all fun r =>
          (s₁.dentries r).all fun d => d.dChild.entries.isEmpty) &&
        returnsWith (init devPath) s₁ fun _ s => Shadowed s) = true := by decide +kernel
  obtain ⟨_,s₀,hs₀,hrun⟩ := returnsWith_elim hrun
  obtain ⟨hempty,hrun⟩ := Bool.and_eq_true_iff.mp hrun
  obtain ⟨_,s₁,hs₁,hrun⟩ := returnsWith_elim hrun
  obtain ⟨hleaf,hrun⟩ := Bool.and_eq_true_iff.mp hrun
  obtain ⟨_,s,hs,hshape⟩ := returnsWith_elim hrun
  have inv₀ : Stands False s₀ :=
    (mountExt4_holds listDisk (cold_stands _) rfl rfl listsNames_listDisk 3).of_ok hs₀
  have hfree : Mountable (topOf s₀) s₀ devPath := ⟨by decide,by decide,leafAt_of_childless hempty,
    fun id d hd hk => (inv₀.devices id d hd hk).elim⟩
  have inv₁ : Stands False s₁ :=
    (mountSimple_holds listDisk inv₀ hfree (by decide) (by decide) 3 false).of_ok hs₁
  refine ⟨s₀,s₁,s,hs₀,hs₁,hs,(init_holds trivial (loose_dev inv₁) ?_).of_ok hs,
    of_decide_eq_true hshape⟩
  intro fs r hfs hr name
  rw [hfs,Option.all_some,hr,Option.all_some] at hleaf
  cases hd : s₁.dentries r with
  | none => exact childOf_none hd name
  | some d =>
    rw [hd,Option.all_some,List.isEmpty_iff] at hleaf
    rw [childOf_eq hd,AList.lookup,hleaf]
    rfl

end Results

end DuckOs.MountRoundTrip
