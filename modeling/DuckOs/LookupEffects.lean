import DuckOs.VfsResolution

namespace DuckOs.LookupEffects
open ExecutionRules NamedTrees PathModel VfsModel VfsTrees VfsLookups VfsCalls VfsMounts
  VfsResolution

variable {δ : Type} {dev : Prop} {top : TreeTop} {s s' s₁ s₂ : Vfs δ} {q c : ℕ} {name path : Str}
  {dq dc d : Dentry} {P : List Str → Str → Prop} {l full : List Str}

def HasInodes (s : Vfs δ) : Prop :=
  ∀ id d, s.dentries id = some d → d.dInode < s.nextInode ∧ ∃ i, s.inodes d.dInode = some i

theorem HasInodes.withInode (h : HasInodes s) (mode : InodeMode) :
    HasInodes (withInode s mode) := by
  intro id d hd
  obtain ⟨hlt,i,hi⟩ := h id d hd
  exact ⟨Nat.lt_succ_of_lt hlt,i,(Function.update_of_ne hlt.ne _ _).trans hi⟩

theorem HasInodes.attach (h : HasInodes s) (hq : s.dentries q = some dq)
    (hattach : Attaching s q name c dq dc s')
    (hinodes : s'.inodes = s.inodes ∧ s'.nextInode = s.nextInode)
    (hdc : dc.dInode < s.nextInode ∧ ∃ i, s.inodes dc.dInode = some i) : HasInodes s' := by
  intro id d hd
  rw [hinodes.1,hinodes.2]
  by_cases hidc : id = c
  · subst hidc
    cases hattach.child.symm.trans hd
    exact hdc
  · by_cases hidq : id = q
    · subst hidq
      cases hattach.parent.symm.trans hd
      exact h _ dq hq
    · rw [hattach.others id hidq hidc] at hd
      exact h id d hd

theorem hasInodes_kept : Kept dev top (HasInodes : Vfs δ → Prop) := by
  refine ⟨fun _ h => h,fun _ _ h => h,?_⟩
  intro s q dq l name mode inv _ hq _ _ _ _ h
  have hsame : SameTree s (VfsLookups.withInode s mode) := ⟨rfl,rfl,rfl,rfl⟩
  exact (h.withInode mode).attach hq (addEntry_attaching (hsame.treeInv inv) hq name
    ⟨.ext4,formatPath name,joinName name dq.dPath,s.nextInode,some q,∅⟩) ⟨rfl,rfl⟩
    ⟨Nat.lt_succ_self _,_,Function.update_self _ _ _⟩

def DevicesNamed (s : Vfs δ) : Prop := ∀ q a c dq dc, childOf s q a = some c →
  s.dentries q = some dq → s.dentries c = some dc → dc.kind = .device → dc.dPath = dq.dPath ++ a

theorem DevicesNamed.grows (h : DevicesNamed s) (hg : Grows top P s s') (inv : TreeInv dev top s) :
    DevicesNamed s' := by
  intro q a c dq' dc' hedge hq' hc' hk
  obtain ⟨dc,hc,hk',hpath⟩ := hg.devices hc' hk
  rcases hg.added q a c hedge with hold | ⟨hnone,-⟩
  · obtain ⟨dq,_,hq,_⟩ := inv.edge q a c hold
    obtain ⟨children,hkept⟩ := hg.kept q dq hq
    cases hq'.symm.trans hkept
    rw [← hpath,h q a c dq dc hold hq hc hk']
  · rw [hnone] at hc
    cases hc

/-- The tree that is mounted, of whose entries the recorded names are not asked. -/
def looseTop (s : Vfs δ) : TreeTop := ⟨rootOf s, s.manager, False⟩

/-- The states that the calls are made in. -/
structure Usable (dev : Prop) (s : Vfs δ) : Prop where
  tree : TreeInv dev (looseTop s) s
  inodes : HasInodes s
  devices : DevicesNamed s

theorem looseTop_eq (inv : TreeInv dev (looseTop s) s') : looseTop s' = looseTop s := by
  unfold looseTop rootOf
  rw [inv.managed]
  rfl

theorem loose_of_stands (inv : Stands dev s) : TreeInv dev (looseTop s) s := by
  refine ⟨inv.fresh,inv.devices,inv.paths,fun q a c hedge => ?_,inv.root,inv.mounted,
    inv.rooted,inv.managed,inv.cached⟩
  obtain ⟨dq,dc,hq,hc,hk,hvalid,-,hrest⟩ := inv.edge q a c hedge
  exact ⟨dq,dc,hq,hc,hk,hvalid,False.elim,hrest⟩

theorem Usable.lookup (lw : Lwext4 δ) (u : Usable dev s) (path : Str) :
    Holds (pathToDentry lw path) s (fun r s₁ => Found dev (looseTop s) path s r s₁ ∧
      Usable dev s₁ ∧ looseTop s₁ = looseTop s) Panics := by
  refine (pathToDentry_keeps lw hasInodes_kept u.tree False.elim u.inodes).imp ?_
  rintro r s₁ ⟨hf,hs₁⟩
  have htop := looseTop_eq hf.inv
  exact ⟨hf,⟨htop ▸ hf.inv,hs₁,u.devices.grows hf.grows u.tree⟩,htop⟩

section Paths

variable {lw : Lwext4 δ} {e : ℕ}

def LeadsTo (lw : Lwext4 δ) (s : Vfs δ) (path : Str) (e : ℕ) : Prop :=
  ∃ t, pathToDentry lw path s = .ok (some e) t

theorem leadsTo_iff (inv : TreeInv dev top s) (hrooted : rootOf s = top.root)
    (hnamed : ¬ top.named) (he : s.dentries e = some d) :
    LeadsTo lw s path e ↔ s.cache.lookup path = some e ∨
      s.cache.lookup path = none ∧ At top s (components path) e := by
  cases hcache : s.cache.lookup path with
  | some x =>
    rw [LeadsTo,pathToDentry_cached lw hcache]
    simp
  | none =>
    constructor
    · rintro ⟨t,ht⟩
      obtain ⟨⟨-,hg,hfound,-⟩,-⟩ := (pathToDentry_walks lw kept_true inv
        (fun h => (hnamed h).elim) trivial hcache).of_ok ht
      exact .inr ⟨rfl,hg.at_before inv ((hfound e).mp rfl) he⟩
    · rintro (h | ⟨-,hat⟩)
      · cases h
      · obtain ⟨cache,hfound⟩ := pathToDentry_found lw inv hrooted hat fun x hx => by
          rw [hcache] at hx
          cases hx
        exact ⟨_,hfound⟩

def KeepsPaths (lw : Lwext4 δ) (s s' : Vfs δ) : Prop :=
  ∀ path e, s.dentries e ≠ none → LeadsTo lw s path e → LeadsTo lw s' path e

theorem at_before_attach (ok : Attachable dev top s q name c dq dc)
    (h : Attaching s q name c dq dc s') (hat : At top s' l e) (hne : e ≠ c) : At top s l e := by
  obtain ⟨r,hr,hl⟩ := hat
  refine ⟨r,hr,?_⟩
  induction hl with
  | root => exact .root
  | @step l n e a hn edge ih =>
    rw [h.childOf_eq ok] at edge
    split at edge
    · exact (hne (Option.some.inj edge).symm).elim
    · refine .step (ih ?_) edge
      rintro rfl
      rw [ok.leaf a] at edge
      cases edge

theorem leadsTo_attach (inv : TreeInv dev top s) (hrooted : rootOf s = top.root)
    (hnamed : ¬ top.named) (ok : Attachable dev top s q name c dq dc)
    (h : Attaching s q name c dq dc s') (hfree : childOf s q name = none)
    (hfresh : s.dentries c = none) (he : s.dentries e = some d) :
    LeadsTo lw s' path e ↔ path ≠ dc.dPath ∧ LeadsTo lw s path e := by
  have hne : e ≠ c := by
    rintro rfl
    rw [hfresh] at he
    cases he
  obtain ⟨children,he'⟩ := h.kept ok he hne
  have hrooted' : rootOf s' = top.root := by rw [rootOf,h.manager]; exact hrooted
  rw [leadsTo_iff (h.treeInv ok inv) hrooted' hnamed he',leadsTo_iff inv hrooted hnamed he,
    h.cache]
  by_cases hp : path = dc.dPath
  · simp [hp,hne.symm]
  · have hat : At top s' (components path) e ↔ At top s (components path) e :=
      ⟨fun hat => at_before_attach ok h hat hne,fun hat => h.at_kept ok hat (by simp [hfree])⟩
    simp [hp,hat]

theorem leadsTo_same (inv : TreeInv dev top s) (hrooted : rootOf s = top.root)
    (hnamed : ¬ top.named) (hsame : SameTree s s') (he : s.dentries e = some d) :
    LeadsTo lw s' path e ↔ LeadsTo lw s path e := by
  have hrooted' : rootOf s' = top.root := by rw [rootOf,hsame.2.2.2]; exact hrooted
  rw [leadsTo_iff (hsame.treeInv inv) hrooted' hnamed (hsame.1.symm ▸ he),
    leadsTo_iff inv hrooted hnamed he,hsame.at,hsame.2.2.1]

theorem keepsPaths_same (lw : Lwext4 δ) (inv : TreeInv dev top s₁) (hrooted : rootOf s₁ = top.root)
    (hnamed : ¬ top.named) (hsame : SameTree s₁ s₂)
    (hkept : ∀ e, s.dentries e ≠ none → s₁.dentries e ≠ none) :
    KeepsPaths lw s s₂ ↔ KeepsPaths lw s s₁ := by
  have hiff : ∀ path e, s.dentries e ≠ none → (LeadsTo lw s₂ path e ↔ LeadsTo lw s₁ path e) :=
    fun path e he => by
      obtain ⟨d,hd⟩ := Option.ne_none_iff_exists'.mp (hkept e he)
      exact leadsTo_same inv hrooted hnamed hsame hd
  exact ⟨fun h path e he hl => (hiff path e he).mp (h path e he hl),
    fun h path e he hl => (hiff path e he).mpr (h path e he hl)⟩

end Paths

theorem lookUp_caches (lw : Lwext4 δ) (q : ℕ) (name : Str) :
    Holds (lookUp lw q name) s (fun r s' => s'.cache = s.cache ∨
      ∃ p c, r = some c ∧ s'.cache = s.cache.insert p c) Panics := by
  refine dentry_bind fun d _ => ?_
  split
  · exact holds_pure (.inl rfl)
  · exact holds_pure (.inl rfl)
  · split
    · exact holds_pure (.inl rfl)
    · refine cwdAndName_bind fun path _ _ => ?_
      refine (loadInode_holds lw path).bind ?_
      rintro _ _ ⟨disk,⟨rfl,rfl⟩ | ⟨mode,rfl,rfl⟩⟩
      · exact holds_pure (.inl rfl)
      · exact holds_ok rfl (.inr ⟨path,s.nextDentry,rfl,rfl⟩)

theorem Usable.entry (u : Usable dev s) (hd : s.dentries c = some d) :
    ∃ i, s.inodes d.dInode = some i := (u.inodes c d hd).2

end DuckOs.LookupEffects
