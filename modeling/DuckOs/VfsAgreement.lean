import DuckOs.VfsMounts

namespace DuckOs.VfsAgreement
open ExecutionRules NamedTrees PathModel VfsModel VfsTrees VfsLookups VfsMounts

variable {δ : Type} {s : Vfs δ}

/-- `fs::init`. -/
def fsInit (lw : Lwext4 δ) (depth : ℕ) : Fs δ Unit := do
  mount lw depth ['/'] true .EXT4
  mount lw depth ['/', 'd', 'e', 'v'] false .DevFs
  init ['/', 'd', 'e', 'v']
  mount lw depth ['/', 'p', 'r', 'o', 'c'] false .ProcFs
  init ['/', 'p', 'r', 'o', 'c']
  mount lw depth ['/', 't', 'm', 'p'] false .TmpFs

/-- The four records of a path agree: the names in the tree, `d_name`, `d_path` and the cache. -/
structure Agrees (s : Vfs δ) : Prop where
  stored : ∀ r l c, rootOf s = some r → l ≠ [] → walk (childOf s) r l = some c →
    ∃ d q dq, s.dentries c = some d ∧ d.dParent = some q ∧ s.dentries q = some dq ∧
      dq.dChild.lookup d.dName = some c ∧ d.dPath = joinName d.dName dq.dPath
  cached : ∀ p c, s.cache.lookup p = some c →
    ∃ r, rootOf s = some r ∧ walk (childOf s) r (components p) = some c

/-- The cache has a file of `init` under its path, which is that of the root with the name behind
it. -/
def InitAt (paPath name : Str) (s : Vfs δ) : Prop :=
  ∃ c d, s.cache.lookup (paPath ++ name) = some c ∧ s.dentries c = some d ∧ c < s.nextDentry ∧
    d.dName = formatPath name ∧ d.dPath = paPath ++ name

def Stray (s : Vfs δ) : Prop := InitAt ['/', 'p', 'r', 'o', 'c'] ['m', 'o', 'u', 'n', 't', 's'] s

/-- `cwd_and_name` puts a slash in front of the name. -/
theorem Stray.disagrees (h : Stray s) : ¬ Agrees s := by
  intro agrees
  obtain ⟨c,d,hc,hd,-,hname,hpath⟩ := h
  obtain ⟨r,hr,hwalk⟩ := agrees.cached _ c hc
  obtain ⟨d',q,dq,hd',-,-,-,hpath'⟩ := agrees.stored r _ c hr (by decide) hwalk
  cases hd.symm.trans hd'
  rw [hpath,hname] at hpath'
  have hlast := congrArg List.getLast? (List.append_cancel_right hpath')
  split_ifs at hlast with hslash
  · exact absurd (hlast.trans hslash) (by decide)
  · rw [List.getLast?_concat] at hlast
    exact absurd hlast (by decide)

theorem insertChild_dentry {q n c : ℕ} {a : Str} {d : Dentry} (h : s.dentries n = some d) :
    ∃ d', (s.insertChild q a c).dentries n = some d' ∧ d'.dName = d.dName ∧
      d'.dPath = d.dPath := by
  by_cases he : n = q
  · subst he
    exact ⟨_,(Function.update_self ..).trans (congrArg _ h),rfl,rfl⟩
  · exact ⟨d,(Function.update_of_ne he ..).trans h,rfl,rfl⟩

theorem initFile_yields (root : ℕ) (paPath name : Str) (mode : InodeMode) :
    Holds (initFile root paPath name mode) s (fun _ s' => InitAt paPath name s')
      fun _ _ => True := by
  have hnew : (addEntry (withInode s mode) ⟨.device,formatPath name,paPath ++ name,s.nextInode,
    some root,∅⟩).dentries s.nextDentry = some _ := Function.update_self ..
  obtain ⟨d,hd,hname,hpath⟩ := insertChild_dentry (q := root) (a := name) (c := s.nextDentry) hnew
  exact holds_ok rfl ⟨_,d,AList.lookup_insert _,hd,Nat.lt_succ_self _,hname,hpath⟩

theorem init_yields (s : Vfs δ) (m : Str) (q : ℕ) :
    Holds (init m) (mounted s m q .ProcFs)
      (fun _ s' => InitAt m ['m', 'o', 'u', 'n', 't', 's'] s') fun _ _ => True := by
  have hnew : (addEntry (withInode s .Directory) (newRoot s m q)).dentries s.nextDentry = some _ :=
    Function.update_self ..
  obtain ⟨d,hd,-,hpath⟩ := insertChild_dentry (q := q) (a := dentryName m) (c := s.nextDentry) hnew
  refine holds_get (holds_bind_ok (a := ⟨.ProcFs,some s.nextDentry⟩) (t := mounted s m q .ProcFs)
    ?_ ?_)
  · rw [show (mounted s m q _).manager.lookup m = some _ from AList.lookup_insert _]
    rfl
  · refine holds_bind_ok (dentry_eq hd) ?_
    rw [show d.dPath = m from hpath]
    exact (holds_trivial _ _).bind fun _ t _ => (initFile_yields _ _ _ _).bind fun _ _ h =>
      holds_pure h

theorem mount_strays {m : Str} {q : ℕ} {fsType : FSType} (h : Stray s)
    (hm : m ≠ ['/','p','r','o','c','m','o','u','n','t','s']) : Stray (mounted s m q fsType) := by
  obtain ⟨c,d,hc,hd,hlt,hname,hpath⟩ := h
  have hold : (addEntry (withInode s .Directory) (newRoot s m q)).dentries c = some d :=
    (Function.update_of_ne hlt.ne _ _).trans hd
  obtain ⟨d',hd',hname',hpath'⟩ := insertChild_dentry (q := q) (a := dentryName m)
    (c := s.nextDentry) hold
  exact ⟨c,d',(AList.lookup_insert_ne hm.symm).trans hc,hd',hlt.trans (Nat.lt_succ_self _),
    hname'.trans hname,hpath'.trans hpath⟩

/-- A mount other than of the root. -/
theorem mount_yields (lw : Lwext4 δ) {m : Str} {fsType : FSType} (hfs : Diskless fsType)
    (hm : m ≠ ['/']) (depth : ℕ) : Holds (mount lw depth m false fsType) s
      (fun _ s' => ∃ q, s' = mounted s m q fsType) fun _ _ => True := by
  cases hparent : s.cache.lookup (parentPath m) with
  | none => exact holds_error (mount_panics lw hfs hm hparent depth) trivial
  | some q => exact holds_ok (mount_eq lw hfs hm hparent depth) ⟨q,rfl⟩

theorem boot_strays (lw : Lwext4 δ) (disk : δ) (depth : ℕ)
    (boot : fsInit lw depth (Vfs.cold disk) = .ok () s) : Stray s := by
  refine Holds.of_ok (Q := fun _ s => Stray s) (E := fun _ _ => True) ?_ boot
  refine (holds_trivial _ _).bind fun _ _ _ => (holds_trivial _ _).bind fun _ _ _ =>
    (holds_trivial _ _).bind fun _ s₃ _ => ?_
  refine (mount_yields lw (.inr (.inr rfl)) (by decide) depth).bind ?_
  rintro _ _ ⟨q,rfl⟩
  refine (init_yields s₃ _ q).bind fun _ s₅ hstray => ?_
  refine (mount_yields lw (.inl rfl) (by decide) depth).imp ?_
  rintro _ _ ⟨q',rfl⟩
  exact mount_strays hstray (by decide)

/-- The records disagree after every `fs::init`. -/
theorem booted_disagrees (lw : Lwext4 δ) (disk : δ) (depth : ℕ)
    (boot : fsInit lw depth (Vfs.cold disk) = .ok () s) : ¬ Agrees s :=
  (boot_strays lw disk depth boot).disagrees

def devzero : Str := ['d', 'e', 'v', 'z', 'e', 'r', 'o']

theorem empty_boots : ∃ s, fsInit listDisk 1 (Vfs.cold []) = .ok () s ∧
    (s.cache.lookup ('/' :: devzero)).isSome ∧
    (rootOf s).bind (walk (childOf s) · [devzero]) = none := by
  have hrun : returnsWith (fsInit listDisk 1) (Vfs.cold []) (fun _ s =>
      (s.cache.lookup ('/' :: devzero)).isSome &&
        ((rootOf s).bind (walk (childOf s) · [devzero])).isNone) = true := by decide +kernel
  obtain ⟨_,s,hs,hrun⟩ := returnsWith_elim hrun
  obtain ⟨hcached,hwalk⟩ := Bool.and_eq_true_iff.mp hrun
  exact ⟨s,hs,hcached,Option.isNone_iff_eq_none.mp hwalk⟩

theorem booted_disagrees_empty :
    ∃ s, fsInit listDisk 1 (Vfs.cold []) = .ok () s ∧ ¬ Agrees s := by
  obtain ⟨s,hs,-⟩ := empty_boots
  exact ⟨s,hs,booted_disagrees listDisk [] 1 hs⟩

/-- After `fs::init` the cache has an entry for `/devzero`, to which the tree does not lead. -/
theorem boot_device_disagrees : ∃ s, fsInit listDisk 1 (Vfs.cold []) = .ok () s ∧
    (s.cache.lookup ('/' :: devzero)).isSome ∧
    (rootOf s).bind (walk (childOf s) · [devzero]) = none ∧ ¬ Agrees s := by
  obtain ⟨s,hs,hcached,hwalk⟩ := empty_boots
  refine ⟨s,hs,hcached,hwalk,fun agrees => ?_⟩
  obtain ⟨c,hc⟩ := Option.isSome_iff_exists.mp hcached
  obtain ⟨r,hr,hfound⟩ := agrees.cached _ c hc
  rw [hr,Option.bind_some] at hwalk
  exact Option.some_ne_none c (hfound.symm.trans hwalk)

end DuckOs.VfsAgreement
