import DuckOs.NamedTrees
import DuckOs.VfsModel

/-! The invariant of the directory tree and its cache. It speaks of edges and of
single entries only; that every entry without children can be put in, taken out
and replaced is shown once, and the calls use that. -/
namespace DuckOs.VfsTrees
open NamedTrees PathModel VfsModel

variable {δ : Type} {d dq dc : Dentry} {a path name key : Str} {l : List Str} {id q c r e : ℕ}
  {s s₁ s₂ s₃ s' : Vfs δ} {dev : Prop}

/-- Where the tree starts, what is mounted, and whether every entry records the name that it has in
the tree. -/
structure TreeTop where
  root : Option ℕ
  manager : StrMap FileSystem
  named : Prop

variable {top : TreeTop}

def childOf (s : Vfs δ) (q : ℕ) (name : Str) : Option ℕ :=
  (s.dentries q).bind fun d => d.dChild.lookup name

def rootOf (s : Vfs δ) : Option ℕ := (s.manager.lookup ['/']).bind FileSystem.rootDentry

def topOf (s : Vfs δ) : TreeTop := ⟨rootOf s, s.manager, True⟩

def Leaf (s : Vfs δ) (c : ℕ) : Prop := ∀ name, childOf s c name = none

/-- The names lead from the root to the entry. -/
def At (top : TreeTop) (s : Vfs δ) (l : List Str) (c : ℕ) : Prop :=
  ∃ r, top.root = some r ∧ Linked (childOf s) r l c

structure TreeInv (dev : Prop) (top : TreeTop) (s : Vfs δ) : Prop where
  fresh : ∀ id, s.nextDentry ≤ id → s.dentries id = none
  devices : ∀ id d, s.dentries id = some d → d.kind = .device → dev
  paths : ∀ id d, s.dentries id = some d →
    ∃ l : List Str, (∀ name ∈ l, ValidName name) ∧ d.dPath = absolute l
  edge : ∀ q name c, childOf s q name = some c → ∃ dq dc, s.dentries q = some dq ∧
    s.dentries c = some dc ∧ dq.kind ≠ .device ∧ ValidName name ∧ (top.named → dc.dName = name) ∧
    dc.dParent = some q ∧ (dc.kind = .device → dq.kind = .simple) ∧
    (dc.kind ≠ .device → dc.dPath = joinName name dq.dPath)
  root : ∀ r, top.root = some r →
    ∃ d, s.dentries r = some d ∧ d.kind ≠ .device ∧ d.dPath = ['/'] ∧ d.dParent = none
  mounted : ∀ mountPoint fs r, s.manager.lookup mountPoint = some fs → fs.rootDentry = some r →
    ∃ d, s.dentries r = some d ∧ d.kind ≠ .device ∧ (fs.fType ≠ .EXT4 → d.kind = .simple)
  rooted : ∀ r, rootOf s = some r → top.root = some r
  managed : s.manager = top.manager
  cached : ∀ p c, s.cache.lookup p = some c → ∃ d, s.dentries c = some d ∧ d.dPath = p ∧
    (d.kind ≠ .device → ∃ l, At top s l c)

theorem ext4_ne_device : DentryKind.ext4 ≠ .device := by decide

theorem simple_ne_device : DentryKind.simple ≠ .device := by decide

theorem childOf_eq (h : s.dentries q = some d) (name : Str) :
    childOf s q name = d.dChild.lookup name := by
  rw [childOf,h,Option.bind_some]

theorem childOf_none (h : s.dentries q = none) (name : Str) : childOf s q name = none := by
  rw [childOf,h,Option.bind_none]

theorem lookup_erased {α : Type} (t : StrMap α) (k p : Str) :
    (t.erase k).lookup p = if p = k then none else t.lookup p := by
  by_cases hp : p = k
  · rw [if_pos hp,hp,AList.lookup_erase]
  · rw [if_neg hp,AList.lookup_erase_ne hp]

theorem lookup_inserted {α : Type} (t : StrMap α) (k : Str) (v : α) (p : Str) :
    (t.insert k v).lookup p = if p = k then some v else t.lookup p := by
  by_cases hp : p = k
  · rw [if_pos hp,hp,AList.lookup_insert]
  · rw [if_neg hp,AList.lookup_insert_ne hp]

theorem inserted_cases {α : Type} {t : StrMap α} {k p : Str} {v w : α}
    (h : (t.insert k v).lookup p = some w) : p = k ∧ w = v ∨ p ≠ k ∧ t.lookup p = some w := by
  rw [lookup_inserted] at h
  split at h
  · exact .inl ⟨by assumption,(Option.some.inj h).symm⟩
  · exact .inr ⟨by assumption,h⟩

theorem erase_absent {α : Type} {t : StrMap α} (h : t.lookup a = none) :
    t.erase a = t :=
  AList.ext (List.kerase_of_notMem_keys (AList.lookup_eq_none.mp h))

def SameTree (s s' : Vfs δ) : Prop :=
  s'.dentries = s.dentries ∧ s'.nextDentry = s.nextDentry ∧ s'.cache = s.cache ∧
    s'.manager = s.manager

theorem SameTree.refl (s : Vfs δ) : SameTree s s := ⟨rfl,rfl,rfl,rfl⟩

theorem SameTree.trans (h : SameTree s₁ s₂) (h' : SameTree s₂ s₃) : SameTree s₁ s₃ :=
  ⟨h'.1.trans h.1,h'.2.1.trans h.2.1,h'.2.2.1.trans h.2.2.1,h'.2.2.2.trans h.2.2.2⟩

theorem SameTree.childOf_eq (h : SameTree s s') : childOf s' = childOf s := by
  funext q name
  rw [childOf,childOf,h.1]

theorem SameTree.at (h : SameTree s s') : At top s' l c ↔ At top s l c := by
  unfold At
  rw [h.childOf_eq]

theorem SameTree.treeInv (h : SameTree s s') (inv : TreeInv dev top s) : TreeInv dev top s' := by
  refine ⟨?_,?_,?_,?_,?_,?_,?_,?_,?_⟩
  · rw [h.1,h.2.1]
    exact inv.fresh
  · rw [h.1]
    exact inv.devices
  · rw [h.1]
    exact inv.paths
  · rw [h.1,h.childOf_eq]
    exact inv.edge
  · rw [h.1]
    exact inv.root
  · rw [h.1,h.2.2.2]
    exact inv.mounted
  · rw [rootOf,h.2.2.2]
    exact inv.rooted
  · rw [h.2.2.2,inv.managed]
  · rw [h.1,h.2.2.1]
    intro p c hp
    obtain ⟨d,hd,hpath,himp⟩ := inv.cached p c hp
    refine ⟨d,hd,hpath,fun hk => ?_⟩
    obtain ⟨l,hl⟩ := himp hk
    exact ⟨l,h.at.mpr hl⟩

section

variable (inv : TreeInv dev top s)
include inv

theorem TreeInv.exists_of_at (h : At top s l c) : ∃ d, s.dentries c = some d := by
  obtain ⟨r,hr,hl⟩ := h
  cases hl with
  | root =>
    obtain ⟨d,hd,-⟩ := inv.root _ hr
    exact ⟨d,hd⟩
  | step _ edge =>
    obtain ⟨_,dc,_,hdc,_⟩ := inv.edge _ _ _ edge
    exact ⟨dc,hdc⟩

theorem TreeInv.validNames_of_at (h : At top s l c) : ∀ name ∈ l, ValidName name := by
  obtain ⟨r,hr,hl⟩ := h
  induction hl with
  | root => exact fun _ hname => (List.not_mem_nil hname).elim
  | step _ edge ih =>
    obtain ⟨_,_,_,_,_,hvalid,_⟩ := inv.edge _ _ _ edge
    intro name hname
    rcases List.mem_append.mp hname with hold | hnew
    · exact ih name hold
    · rw [List.mem_singleton.mp hnew]
      exact hvalid

theorem TreeInv.path_of_at (h : At top s l c) (hd : s.dentries c = some d)
    (hk : d.kind ≠ .device) : d.dPath = absolute l := by
  obtain ⟨r,hr,hl⟩ := h
  induction hl generalizing d with
  | root =>
    obtain ⟨d',hd',-,hpath,-⟩ := inv.root _ hr
    cases hd'.symm.trans hd
    exact hpath
  | @step l q c a hq edge ih =>
    obtain ⟨dq,dc,hdq,hdc,hkq,-,-,-,-,hpath⟩ := inv.edge _ _ _ edge
    cases hdc.symm.trans hd
    rw [hpath hk,ih hdq hkq]
    exact joinName_absolute (inv.validNames_of_at ⟨r,hr,hq⟩) a

theorem TreeInv.components_of_at (h : At top s l c)
    (hd : s.dentries c = some d) (hk : d.kind ≠ .device) : components d.dPath = l := by
  rw [inv.path_of_at h hd hk,components_absolute (inv.validNames_of_at h)]

theorem TreeInv.at_of_cached {p : Str} (h : s.cache.lookup p = some c)
    (hd : s.dentries c = some d) (hk : d.kind ≠ .device) : At top s (components p) c := by
  obtain ⟨d',hd',hpath,himp⟩ := inv.cached p c h
  cases hd'.symm.trans hd
  obtain ⟨l,hl⟩ := himp hk
  rw [← hpath,inv.components_of_at hl hd hk]
  exact hl

end

theorem At.unique {c' : ℕ} (h : At top s l c) (h' : At top s l c') : c = c' := by
  obtain ⟨r,hr,hl⟩ := h
  obtain ⟨r',hr',hl'⟩ := h'
  cases hr.symm.trans hr'
  exact hl.unique hl'

theorem At.walk_eq (h : At top s l c) (hr : top.root = some r) : walk (childOf s) r l = some c := by
  obtain ⟨r',hr',hl⟩ := h
  cases hr'.symm.trans hr
  exact hl.walk_eq

theorem At.of_append (h : At top s (l ++ [a]) c) : ∃ q, At top s l q ∧ childOf s q a = some c := by
  obtain ⟨r,hr,hl⟩ := h
  obtain ⟨q,hq,hc⟩ := hl.of_append
  exact ⟨q,⟨r,hr,hq⟩,hc⟩

theorem At.child (h : At top s l q) (hc : childOf s q a = some c) : At top s (l ++ [a]) c := by
  obtain ⟨r,hr,hl⟩ := h
  exact ⟨r,hr,hl.step hc⟩

theorem At.of_prefix {l' : List Str} (h : At top s (l ++ l') c) : ∃ q, At top s l q := by
  induction l' using List.reverseRecOn generalizing c with
  | nil => exact ⟨c,by rwa [List.append_nil] at h⟩
  | append_singleton l' a ih =>
    rw [← List.append_assoc] at h
    obtain ⟨q,hq,-⟩ := h.of_append
    exact ih hq

theorem TreeInv.root_no_edge (inv : TreeInv dev top s) (hr : top.root = some r) :
    childOf s q a ≠ some r := by
  intro h
  obtain ⟨d,hd,-,-,hparent⟩ := inv.root r hr
  obtain ⟨_,dc,_,hdc,_,_,_,hparent',_⟩ := inv.edge _ _ _ h
  cases hdc.symm.trans hd
  rw [hparent] at hparent'
  cases hparent'

theorem TreeInv.edge_of_parent (inv : TreeInv dev top s) (hn : top.named) (hat : At top s l c)
    (hd : s.dentries c = some d) (hq : d.dParent = some q) : childOf s q d.dName = some c := by
  obtain ⟨r,hr,hl⟩ := hat
  cases hl with
  | root =>
    obtain ⟨d',hd',-,-,hnone⟩ := inv.root _ hr
    cases hd.symm.trans hd'
    rw [hq] at hnone
    cases hnone
  | step _ edge =>
    obtain ⟨_,d',_,hd',_,_,hname,hparent,_⟩ := inv.edge _ _ _ edge
    cases hd.symm.trans hd'
    cases hq.symm.trans hparent
    rw [hname hn]
    exact edge

theorem TreeInv.learn (inv : TreeInv dev top s) (hat : At top s l c)
    (hd : s.dentries c = some dc) : TreeInv dev top (s.cacheInsert dc.dPath c) := by
  refine ⟨inv.fresh,inv.devices,inv.paths,inv.edge,inv.root,inv.mounted,inv.rooted,
    inv.managed,fun p c' hp => ?_⟩
  rcases inserted_cases hp with ⟨rfl,rfl⟩ | ⟨-,hold⟩
  · exact ⟨dc,hd,rfl,fun _ => ⟨l,hat⟩⟩
  · exact inv.cached p c' hold

structure Attaching (s : Vfs δ) (q : ℕ) (name : Str) (c : ℕ) (dq dc : Dentry) (s' : Vfs δ) :
    Prop where
  parent : s'.dentries q = some { dq with dChild := dq.dChild.insert name c }
  child : s'.dentries c = some dc
  others : ∀ id, id ≠ q → id ≠ c → s'.dentries id = s.dentries id
  cache : ∀ p, s'.cache.lookup p = if p = dc.dPath then some c else s.cache.lookup p
  manager : s'.manager = s.manager
  next : s.nextDentry ≤ s'.nextDentry ∧ c < s'.nextDentry

structure Attachable (dev : Prop) (top : TreeTop) (s : Vfs δ) (q : ℕ) (name : Str) (c : ℕ)
    (dq dc : Dentry) :
    Prop where
  parent : s.dentries q = some dq
  parentKind : dq.kind ≠ .device
  valid : ValidName name
  replaced : ∀ e, childOf s q name = some e → Leaf s e ∧ dc.kind ≠ .device
  apart : c ≠ q
  noRoot : top.root ≠ some c
  mount : ∀ mountPoint fs, s.manager.lookup mountPoint = some fs → fs.rootDentry = some c →
    ∃ d, s.dentries c = some d ∧ dc.kind = d.kind
  inSimple : dc.kind = .device → dq.kind = .simple
  noEdge : ∀ q' a, childOf s q' a ≠ some c
  noCache : ∀ p, s.cache.lookup p ≠ some c
  leaf : Leaf s c
  named : top.named → dc.dName = name
  owned : dc.dParent = some q
  empty : ∀ a, dc.dChild.lookup a = none
  kind : dc.kind = .device → dev
  path : ∃ l : List Str, (∀ n ∈ l, ValidName n) ∧ dc.dPath = absolute l
  joined : dc.kind ≠ .device → dc.dPath = joinName name dq.dPath
  placed : dc.kind ≠ .device → ∃ l, At top s l q

section

variable (h : Attaching s q name c dq dc s') (ok : Attachable dev top s q name c dq dc)
include h ok

theorem Attaching.childOf_eq (n : ℕ) (a : Str) :
    childOf s' n a = if n = q ∧ a = name then some c else childOf s n a := by
  by_cases hn : n = q
  · subst hn
    rw [childOf_eq h.parent,childOf_eq ok.parent]
    by_cases ha : a = name
    · rw [ha,AList.lookup_insert,if_pos ⟨rfl,rfl⟩]
    · rw [AList.lookup_insert_ne ha,if_neg fun hc => ha hc.2]
  · rw [if_neg fun hc => hn hc.1]
    by_cases hc : n = c
    · subst hc
      rw [VfsTrees.childOf_eq h.child,ok.empty,ok.leaf]
    · rw [childOf,childOf,h.others n hn hc]

theorem Attaching.kept (hd : s.dentries id = some d) (hne : id ≠ c) :
    ∃ children, s'.dentries id = some { d with dChild := children } := by
  by_cases hq : id = q
  · subst hq
    cases ok.parent.symm.trans hd
    exact ⟨_,h.parent⟩
  · exact ⟨d.dChild,by rw [h.others id hq hne,hd]⟩

theorem Attaching.at_kept (hat : At top s l e) (hne : childOf s q name ≠ some e) :
    At top s' l e := by
  obtain ⟨r,hr,hl⟩ := hat
  refine ⟨r,hr,?_⟩
  cases hold : childOf s q name with
  | none =>
    refine hl.mono fun n a d hedge => ?_
    rw [h.childOf_eq ok,if_neg,hedge]
    rintro ⟨rfl,rfl⟩
    rw [hold] at hedge
    cases hedge
  | some old =>
    have hne' : e ≠ old := by
      rintro rfl
      exact hne hold
    refine hl.without_leaf hne' (ok.replaced old hold).1 fun n a d hedge hd => ?_
    rw [h.childOf_eq ok,if_neg,hedge]
    rintro ⟨rfl,rfl⟩
    rw [hold] at hedge
    exact hd (Option.some.inj hedge).symm

theorem Attaching.at_parent (hat : At top s l q) : At top s' l q := by
  by_cases hself : childOf s q name = some q
  · -- a parent that were its own child would have a child
    have hleaf := (ok.replaced q hself).1 name
    rw [hself] at hleaf
    cases hleaf
  · exact h.at_kept ok hat hself

theorem Attaching.treeInv (inv : TreeInv dev top s) : TreeInv dev top s' := by
  have hqlt : q < s.nextDentry := by
    by_contra hge
    have hnone := inv.fresh q (by omega)
    rw [ok.parent] at hnone
    cases hnone
  have hcases : ∀ id d, s'.dentries id = some d → (id = c ∧ d = dc) ∨
      (id ≠ c ∧ ∃ d', s.dentries id = some d' ∧ d.kind = d'.kind ∧ d.dPath = d'.dPath) := by
    intro id d hd
    by_cases hc : id = c
    · subst hc
      exact .inl ⟨rfl,Option.some.inj (hd.symm.trans h.child)⟩
    · by_cases hq : id = q
      · subst hq
        rw [h.parent,Option.some.injEq] at hd
        subst hd
        exact .inr ⟨hc,dq,ok.parent,rfl,rfl⟩
      · rw [h.others id hq hc] at hd
        exact .inr ⟨hc,d,hd,rfl,rfl⟩
  refine ⟨fun id hid => ?_,fun id d hd hk => ?_,fun id d hd => ?_,fun n a e hedge => ?_,
    fun r hr => ?_,fun mountPoint fs r hfs hr => ?_,?_,
    h.manager.trans inv.managed,fun p e hp => ?_⟩
  · have hnext := h.next
    rw [h.others id (by omega) (by omega)]
    exact inv.fresh id (by omega)
  · rcases hcases id d hd with ⟨-,rfl⟩ | ⟨-,d',hd',hkind,-⟩
    · exact ok.kind hk
    · exact inv.devices id d' hd' (hkind.symm.trans hk)
  · rcases hcases id d hd with ⟨-,rfl⟩ | ⟨-,d',hd',-,hpath⟩
    · exact ok.path
    · rw [hpath]
      exact inv.paths id d' hd'
  · rw [h.childOf_eq ok] at hedge
    split_ifs at hedge with heq
    · obtain ⟨rfl,rfl⟩ := heq
      cases hedge
      exact ⟨_,dc,h.parent,h.child,ok.parentKind,ok.valid,ok.named,ok.owned,ok.inSimple,
        ok.joined⟩
    · obtain ⟨dn,de,hdn,hde,hkn,hvalid,hname,hparent,hin,hpath⟩ := inv.edge n a e hedge
      have hec : e ≠ c := fun heq => ok.noEdge n a (heq ▸ hedge)
      have hnc : n ≠ c := by
        rintro rfl
        rw [ok.leaf a] at hedge
        cases hedge
      obtain ⟨chn,hn'⟩ := h.kept ok hdn hnc
      obtain ⟨che,he'⟩ := h.kept ok hde hec
      exact ⟨_,_,hn',he',hkn,hvalid,hname,hparent,hin,hpath⟩
  · obtain ⟨d,hd,hk,hpath,hparent⟩ := inv.root r hr
    have hrc : r ≠ c := by
      rintro rfl
      exact ok.noRoot hr
    obtain ⟨children,hd'⟩ := h.kept ok hd hrc
    exact ⟨_,hd',hk,hpath,hparent⟩
  · rw [h.manager] at hfs
    obtain ⟨d,hd,hk⟩ := inv.mounted mountPoint fs r hfs hr
    by_cases hrc : r = c
    · subst hrc
      obtain ⟨d',hd',hkind⟩ := ok.mount mountPoint fs hfs hr
      cases hd.symm.trans hd'
      exact ⟨dc,h.child,by rwa [hkind]⟩
    · obtain ⟨children,hd'⟩ := h.kept ok hd hrc
      exact ⟨_,hd',hk⟩
  · rw [rootOf,h.manager]
    exact inv.rooted
  · rw [h.cache] at hp
    split_ifs at hp with hpp
    · cases hp
      refine ⟨dc,h.child,hpp.symm,fun hk => ?_⟩
      obtain ⟨l',hat⟩ := ok.placed hk
      refine ⟨l' ++ [name],(h.at_parent ok hat).child ?_⟩
      rw [h.childOf_eq ok,if_pos ⟨rfl,rfl⟩]
    · obtain ⟨d,hd,hpath,himp⟩ := inv.cached p e hp
      have hec : e ≠ c := fun heq => ok.noCache p (heq ▸ hp)
      obtain ⟨children,hd'⟩ := h.kept ok hd hec
      refine ⟨_,hd',hpath,fun hk => ?_⟩
      obtain ⟨l,hat⟩ := himp hk
      refine ⟨l,h.at_kept ok hat fun hold => ?_⟩
      obtain ⟨dq',de,hdq',hde,-,-,-,-,-,hjoin⟩ := inv.edge _ _ _ hold
      cases ok.parent.symm.trans hdq'
      cases hde.symm.trans hd
      refine hpp ?_
      rw [← hpath,hjoin hk,ok.joined (ok.replaced e hold).2]

end

theorem attachable_fresh (inv : TreeInv dev top s) (hq : s.dentries q = some dq)
    (hkq : dq.kind ≠ .device) (hvalid : ValidName name)
    (hreplaced : ∀ e, childOf s q name = some e → Leaf s e ∧ dc.kind ≠ .device)
    (hname : top.named → dc.dName = name) (hparent : dc.dParent = some q)
    (hempty : ∀ a, dc.dChild.lookup a = none)
    (hkind : dc.kind = .device → dev) (hsimple : dc.kind = .device → dq.kind = .simple)
    (hpath : ∃ l : List Str, (∀ n ∈ l, ValidName n) ∧ dc.dPath = absolute l)
    (hjoin : dc.kind ≠ .device → dc.dPath = joinName name dq.dPath)
    (hplaced : dc.kind ≠ .device → ∃ l, At top s l q) :
    Attachable dev top s q name s.nextDentry dq dc := by
  have hfresh := inv.fresh s.nextDentry le_rfl
  refine ⟨hq,hkq,hvalid,hreplaced,?_,fun hr => ?_,fun _ _ hfs hr => ?_,hsimple,fun q' a hedge => ?_,
    fun p hp => ?_,
    childOf_none hfresh,hname,hparent,hempty,hkind,hpath,hjoin,hplaced⟩
  · rintro heq
    rw [← heq,hfresh] at hq
    cases hq
  · obtain ⟨d,hd,-⟩ := inv.root _ hr
    rw [hfresh] at hd
    cases hd
  · obtain ⟨d,hd,-⟩ := inv.mounted _ _ _ hfs hr
    rw [hfresh] at hd
    cases hd
  · obtain ⟨_,d,_,hd,_⟩ := inv.edge _ _ _ hedge
    rw [hfresh] at hd
    cases hd
  · obtain ⟨d,hd,-⟩ := inv.cached p _ hp
    rw [hfresh] at hd
    cases hd

structure Detaching (s : Vfs δ) (q : ℕ) (name : Str) (c : ℕ) (dq dc : Dentry) (key : Str)
    (s' : Vfs δ) : Prop where
  edge : childOf s q name = some c
  parentBefore : s.dentries q = some dq
  childBefore : s.dentries c = some dc
  parent : s'.dentries q = some { dq with dChild := dq.dChild.erase name }
  child : ∃ p, s'.dentries c = some { dc with dParent := p }
  others : ∀ id, id ≠ q → id ≠ c → s'.dentries id = s.dentries id
  keyed : dc.kind ≠ .device → key = dc.dPath
  cache : ∀ p, s'.cache.lookup p = if p = key then none else s.cache.lookup p
  manager : s'.manager = s.manager
  next : s'.nextDentry = s.nextDentry

section

variable (h : Detaching s q name c dq dc key s')
include h

theorem Detaching.apart (leaf : Leaf s c) : c ≠ q := by
  rintro rfl
  have hnone := leaf name
  rw [h.edge] at hnone
  cases hnone

theorem Detaching.childOf_eq (leaf : Leaf s c) (n : ℕ)
    (a : Str) : childOf s' n a = if n = q ∧ a = name then none else childOf s n a := by
  by_cases hn : n = q
  · subst hn
    rw [VfsTrees.childOf_eq h.parent,VfsTrees.childOf_eq h.parentBefore]
    by_cases ha : a = name
    · rw [ha,AList.lookup_erase,if_pos ⟨rfl,rfl⟩]
    · rw [AList.lookup_erase_ne ha,if_neg fun hc => ha hc.2]
  · rw [if_neg fun hc => hn hc.1]
    by_cases hc : n = c
    · subst hc
      obtain ⟨p,hp⟩ := h.child
      rw [VfsTrees.childOf_eq hp,VfsTrees.childOf_eq h.childBefore]
    · rw [childOf,childOf,h.others n hn hc]

theorem Detaching.no_edge (leaf : Leaf s c) (inv : TreeInv dev top s)
    (hn : dc.kind = .device → top.named) (n : ℕ) (a : Str) : childOf s' n a ≠ some c := by
  intro hedge
  rw [h.childOf_eq leaf] at hedge
  split at hedge
  · cases hedge
  · rename_i hne
    obtain ⟨dn,d,hdn,hd,_,hvalid,hname,hparent,_,hpath⟩ := inv.edge n a c hedge
    obtain ⟨dq',d',hdq,hd',_,hvalid',hname',hparent',_,hpath'⟩ := inv.edge q name c h.edge
    cases hd.symm.trans hd'
    cases h.childBefore.symm.trans hd
    obtain rfl := Option.some.inj (hparent.symm.trans hparent')
    cases hdn.symm.trans hdq
    refine hne ⟨rfl,?_⟩
    by_cases hk : dc.kind = .device
    · exact (hname (hn hk)).symm.trans (hname' (hn hk))
    · have hcomp := congrArg components ((hpath hk).symm.trans (hpath' hk))
      rw [components_joinName hvalid,components_joinName hvalid'] at hcomp
      exact List.singleton_inj.mp (List.append_cancel_left hcomp)

theorem Detaching.kept (hd : s.dentries id = some d) (hne : id ≠ c) :
    ∃ children, s'.dentries id = some { d with dChild := children } := by
  by_cases hq : id = q
  · subst hq
    cases h.parentBefore.symm.trans hd
    exact ⟨_,h.parent⟩
  · exact ⟨d.dChild,by rw [h.others id hq hne,hd]⟩

theorem Detaching.at_kept (leaf : Leaf s c) (hat : At top s l e) (hne : e ≠ c) : At top s' l e := by
  obtain ⟨r,hr,hl⟩ := hat
  refine ⟨r,hr,?_⟩
  refine hl.without_leaf hne leaf fun n a d hedge hd => ?_
  rw [h.childOf_eq leaf,if_neg,hedge]
  rintro ⟨rfl,rfl⟩
  rw [h.edge] at hedge
  exact hd (Option.some.inj hedge).symm

theorem Detaching.before (hd : s'.dentries id = some d) :
    ∃ d', s.dentries id = some d' ∧ d.kind = d'.kind ∧ d.dPath = d'.dPath := by
  by_cases hc : id = c
  · subst hc
    obtain ⟨p,hp⟩ := h.child
    rw [hp,Option.some.injEq] at hd
    subst hd
    exact ⟨dc,h.childBefore,rfl,rfl⟩
  · by_cases hq : id = q
    · subst hq
      rw [h.parent,Option.some.injEq] at hd
      subst hd
      exact ⟨dq,h.parentBefore,rfl,rfl⟩
    · rw [h.others id hq hc] at hd
      exact ⟨d,hd,rfl,rfl⟩

theorem Detaching.treeInv (leaf : Leaf s c) (hn : dc.kind = .device → top.named)
    (inv : TreeInv dev top s) : TreeInv dev top s' := by
  refine ⟨fun id hid => ?_,fun id d hd hk => ?_,fun id d hd => ?_,fun n a e hedge => ?_,
    fun r hr => ?_,fun mountPoint fs r hfs hr => ?_,?_,
    h.manager.trans inv.managed,fun p e hp => ?_⟩
  · rw [h.next] at hid
    have hnone := inv.fresh id hid
    rw [h.others id,hnone]
    · rintro rfl
      rw [h.parentBefore] at hnone
      cases hnone
    · rintro rfl
      rw [h.childBefore] at hnone
      cases hnone
  · obtain ⟨d',hd',hkind,-⟩ := h.before hd
    exact inv.devices id d' hd' (hkind.symm.trans hk)
  · obtain ⟨d',hd',-,hpath⟩ := h.before hd
    rw [hpath]
    exact inv.paths id d' hd'
  · have hec : e ≠ c := fun heq => h.no_edge leaf inv hn n a (heq ▸ hedge)
    rw [h.childOf_eq leaf] at hedge
    split at hedge
    · cases hedge
    · obtain ⟨dn,de,hdn,hde,hkn,hvalid,hname,hparent,hin,hpath⟩ := inv.edge n a e hedge
      have hnc : n ≠ c := by
        rintro rfl
        rw [leaf a] at hedge
        cases hedge
      obtain ⟨chn,hn'⟩ := h.kept hdn hnc
      obtain ⟨che,he'⟩ := h.kept hde hec
      exact ⟨_,_,hn',he',hkn,hvalid,hname,hparent,hin,hpath⟩
  · obtain ⟨d,hd,hk,hpath,hparent⟩ := inv.root r hr
    have hrc : r ≠ c := by
      rintro rfl
      exact inv.root_no_edge hr h.edge
    obtain ⟨children,hd'⟩ := h.kept hd hrc
    exact ⟨_,hd',hk,hpath,hparent⟩
  · rw [h.manager] at hfs
    obtain ⟨d,hd,hk⟩ := inv.mounted mountPoint fs r hfs hr
    by_cases hrc : r = c
    · subst hrc
      cases h.childBefore.symm.trans hd
      obtain ⟨p,hp⟩ := h.child
      exact ⟨_,hp,hk⟩
    · obtain ⟨children,hd'⟩ := h.kept hd hrc
      exact ⟨_,hd',hk⟩
  · rw [rootOf,h.manager]
    exact inv.rooted
  · rw [h.cache] at hp
    split at hp
    · cases hp
    · rename_i hpp
      obtain ⟨d,hd,hpath,himp⟩ := inv.cached p e hp
      by_cases hec : e = c
      · subst hec
        cases h.childBefore.symm.trans hd
        obtain ⟨par,hpar⟩ := h.child
        exact ⟨_,hpar,hpath,fun hk => (hpp (hpath.symm.trans (h.keyed hk).symm)).elim⟩
      · obtain ⟨children,hd'⟩ := h.kept hd hec
        refine ⟨_,hd',hpath,fun hk => ?_⟩
        obtain ⟨l,hat⟩ := himp hk
        exact ⟨l,h.at_kept leaf hat hec⟩

theorem Detaching.gone (inv : TreeInv dev top s)
    (hk : dc.kind ≠ .device) (p : Str) : s'.cache.lookup p ≠ some c := by
  intro hp
  rw [h.cache] at hp
  split at hp
  · cases hp
  · rename_i hpp
    obtain ⟨d,hd,hpath,-⟩ := inv.cached p c hp
    cases h.childBefore.symm.trans hd
    exact hpp (hpath.symm.trans (h.keyed hk).symm)

end

section Growth

structure Grows (top : TreeTop) (P : List Str → Str → Prop) (s s' : Vfs δ) : Prop where
  manager : s'.manager = s.manager
  edges : ∀ q a c, childOf s q a = some c → childOf s' q a = some c
  kept : ∀ id d, s.dentries id = some d →
    ∃ children, s'.dentries id = some { d with dChild := children }
  kinds : ∀ id d', s'.dentries id = some d' → d'.kind = .ext4 ∨
    ∃ d, s.dentries id = some d ∧ d.kind = d'.kind ∧ d.dPath = d'.dPath
  added : ∀ q a c, childOf s' q a = some c → childOf s q a = some c ∨
    s.dentries c = none ∧ ∃ l, At top s' l q ∧ P l a

def Along (full l : List Str) (a : Str) : Prop := l ++ [a] <+: full

def Below (upper l : List Str) (_ : Str) : Prop := upper <+: l

variable {P : List Str → Str → Prop}

theorem SameTree.grows (h : SameTree s s₁) (P : List Str → Str → Prop) : Grows top P s s₁ := by
  refine ⟨h.2.2.2,fun q a c hc => ?_,fun id d hd => ⟨d.dChild,?_⟩,fun id d hd => ?_,
    fun q a c hc => ?_⟩
  · rw [h.childOf_eq]
    exact hc
  · rw [h.1,hd]
  · rw [h.1] at hd
    exact .inr ⟨d,hd,rfl,rfl⟩
  · rw [h.childOf_eq] at hc
    exact .inl hc

theorem Grows.devices (h : Grows top P s s₁) {d' : Dentry} (hd : s₁.dentries id = some d')
    (hk : d'.kind = .device) :
    ∃ d, s.dentries id = some d ∧ d.kind = .device ∧ d.dPath = d'.dPath := by
  rcases h.kinds id d' hd with hext4 | ⟨d,hd',hkind,hpath⟩
  · rw [hext4] at hk
    cases hk
  · exact ⟨d,hd',hkind.trans hk,hpath⟩

theorem Grows.rootOf_eq (h : Grows top P s s₁) : rootOf s₁ = rootOf s := by
  rw [rootOf,rootOf,h.manager]

theorem Grows.imp {P' : List Str → Str → Prop} (h : Grows top P s s₁)
    (himp : ∀ l a, P l a → P' l a) : Grows top P' s s₁ := by
  refine ⟨h.manager,h.edges,h.kept,h.kinds,fun q a c hc => ?_⟩
  rcases h.added q a c hc with hold | ⟨hnone,l,hat,hP⟩
  · exact .inl hold
  · exact .inr ⟨hnone,l,hat,himp l a hP⟩

theorem Grows.at (h : Grows top P s s₁) (hat : At top s l c) : At top s₁ l c := by
  obtain ⟨r,hr,hl⟩ := hat
  exact ⟨r,hr,hl.mono h.edges⟩

theorem Grows.trans (h : Grows top P s₁ s₂) (h' : Grows top P s₂ s₃) : Grows top P s₁ s₃ := by
  refine ⟨h'.manager.trans h.manager,fun q a c hc => h'.edges q a c (h.edges q a c hc),
    fun id d hd => ?_,fun id d hd => ?_,fun q a c hc => ?_⟩
  · obtain ⟨ch,hch⟩ := h.kept id d hd
    obtain ⟨ch',hch'⟩ := h'.kept id _ hch
    exact ⟨ch',hch'⟩
  · rcases h'.kinds id d hd with hext4 | ⟨d₂,hd₂,hk₂,hpath₂⟩
    · exact .inl hext4
    · rcases h.kinds id d₂ hd₂ with hext4 | ⟨d₁,hd₁,hk₁,hpath₁⟩
      · exact .inl (hk₂.symm.trans hext4)
      · exact .inr ⟨d₁,hd₁,hk₁.trans hk₂,hpath₁.trans hpath₂⟩
  · rcases h'.added q a c hc with hold | ⟨hnone,l,hat,hP⟩
    · rcases h.added q a c hold with hold' | ⟨hnone,l,hat,hP⟩
      · exact .inl hold'
      · exact .inr ⟨hnone,l,h'.at hat,hP⟩
    · refine .inr ⟨?_,l,hat,hP⟩
      cases hc₁ : s₁.dentries c with
      | none => rfl
      | some d =>
        obtain ⟨ch,hch⟩ := h.kept c d hc₁
        rw [hnone] at hch
        cases hch

theorem Grows.at_before (h : Grows top P s s₁) (inv : TreeInv dev top s) (hat : At top s₁ l c)
    (hd : s.dentries c = some d) : At top s l c := by
  obtain ⟨r,hr,hl⟩ := hat
  refine ⟨r,hr,?_⟩
  induction hl generalizing d with
  | root => exact .root
  | step _ edge ih =>
    rcases h.added _ _ _ edge with hold | ⟨hnone,-⟩
    · obtain ⟨dq,_,hdq,_⟩ := inv.edge _ _ _ hold
      exact .step (ih hdq) hold
    · rw [hnone] at hd
      cases hd

theorem Grows.place (h : Grows top P s s₁) (inv₁ : TreeInv dev top s₁) (hat : At top s₁ l q)
    (hc : childOf s₁ q a = some c) : childOf s q a = some c ∨ s.dentries c = none ∧ P l a := by
  rcases h.added q a c hc with hold | ⟨hnone,l',hat',hP⟩
  · exact .inl hold
  · obtain ⟨d,_,hd,_,hk,_⟩ := inv₁.edge _ _ _ hc
    have hll : l = l' := by
      rw [← inv₁.components_of_at hat hd hk,← inv₁.components_of_at hat' hd hk]
    subst hll
    exact .inr ⟨hnone,hP⟩

def LeafAt (top : TreeTop) (s : Vfs δ) (l : List Str) : Prop := ∀ c, At top s l c → Leaf s c

def childless (s : Vfs δ) (l : List Str) : Bool :=
  match (rootOf s).bind fun r => walk (childOf s) r l with
  | some c => (s.dentries c).all fun d => d.dChild.entries.isEmpty
  | none => true

theorem leafAt_of_childless (h : childless s l) : LeafAt (topOf s) s l := by
  rintro c ⟨r,hr,hl⟩ name
  unfold childless at h
  rw [show rootOf s = some r from hr,Option.bind_some,hl.walk_eq] at h
  cases hd : s.dentries c with
  | none => exact childOf_none hd name
  | some d =>
    have hempty : d.dChild.entries = [] := by simpa [hd] using h
    rw [childOf_eq hd]
    simp [AList.lookup,hempty]

theorem LeafAt.grows (hleaf : LeafAt top s l) (h : Grows top P s s₁)
    (inv : TreeInv dev top s) (inv₁ : TreeInv dev top s₁) (hP : ∀ a, ¬ P l a) :
    LeafAt top s₁ l := by
  intro c hat a
  by_contra hne
  obtain ⟨e,he⟩ := Option.ne_none_iff_exists'.mp hne
  rcases h.place inv₁ hat he with hold | ⟨-,hPa⟩
  · obtain ⟨d,_,hd,_⟩ := inv.edge _ _ _ hold
    rw [hleaf c (h.at_before inv hat hd) a] at hold
    cases hold
  · exact hP a hPa

theorem not_along {full : List Str} (hpre : l <+: full → l = full) (a : Str) :
    ¬ Along full l a := by
  intro hP
  have heq := hpre ((List.prefix_append l [a]).trans hP)
  have hlen := hP.length_le
  rw [← heq,List.length_append,List.length_singleton] at hlen
  omega

theorem Grows.absent (h : Grows top P s s₁) (inv : TreeInv dev top s)
    (inv₁ : TreeInv dev top s₁) (habsent : ∀ c, ¬ At top s (l ++ [a]) c) (hP : ¬ P l a) (c : ℕ) :
    ¬ At top s₁ (l ++ [a]) c := by
  intro hat
  obtain ⟨q,hq,hc⟩ := hat.of_append
  rcases h.place inv₁ hq hc with hold | ⟨-,hPa⟩
  · obtain ⟨dq,_,hdq,_⟩ := inv.edge _ _ _ hold
    exact habsent c ((h.at_before inv hq hdq).child hold)
  · exact hP hPa

theorem Attaching.grows (h : Attaching s q name c dq dc s₁)
    (ok : Attachable dev top s q name c dq dc) (hnew : childOf s q name = none)
    (hc : s.dentries c = none) (hk : dc.kind = .ext4) (hat : At top s l q) (hP : P l name) :
    Grows top P s s₁ := by
  refine ⟨h.manager,fun n a e he => ?_,fun id d hd => h.kept ok hd ?_,fun id d hd => ?_,
    fun n a e he => ?_⟩
  · rw [h.childOf_eq ok,if_neg,he]
    rintro ⟨rfl,rfl⟩
    rw [hnew] at he
    cases he
  · rintro rfl
    rw [hc] at hd
    cases hd
  · by_cases hidq : id = q
    · subst hidq
      rw [h.parent,Option.some.injEq] at hd
      subst hd
      exact .inr ⟨dq,ok.parent,rfl,rfl⟩
    · by_cases hidc : id = c
      · subst hidc
        rw [h.child,Option.some.injEq] at hd
        exact .inl (hd ▸ hk)
      · rw [h.others id hidq hidc] at hd
        exact .inr ⟨d,hd,rfl,rfl⟩
  · rw [h.childOf_eq ok] at he
    split_ifs at he with heq
    · obtain ⟨rfl,rfl⟩ := heq
      cases he
      exact .inr ⟨hc,l,h.at_parent ok hat,hP⟩
    · exact .inl he

def NoDevice (top : TreeTop) (s : Vfs δ) (path : Str) : Prop :=
  ∀ id d, s.dentries id = some d → d.kind = .device →
    d.dPath ≠ path ∧ ¬ At top s (components path) id

theorem NoDevice.grows (h : NoDevice top s path) (hg : Grows top P s s₁)
    (inv : TreeInv dev top s) : NoDevice top s₁ path := by
  intro id d hd hk
  obtain ⟨d',hd',hk',hpath⟩ := hg.devices hd hk
  obtain ⟨hne,hnot⟩ := h id d' hd' hk'
  exact ⟨hpath ▸ hne,fun hat => hnot (hg.at_before inv hat hd')⟩

theorem NoDevice.at_of_cached (h : NoDevice top s path) (inv : TreeInv dev top s)
    (hc : s.cache.lookup path = some c) : At top s (components path) c := by
  obtain ⟨d,hd,hpath,-⟩ := inv.cached path c hc
  exact inv.at_of_cached hc hd fun hk => (h c d hd hk).1 hpath

end Growth

end DuckOs.VfsTrees
