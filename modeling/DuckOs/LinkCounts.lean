import DuckOs.LookupEffects
import DuckOs.UnlinkedPaths
import DuckOs.FdTables

namespace DuckOs.LinkCounts
open ExecutionRules NamedTrees PathModel VfsModel VfsTrees VfsLookups VfsCalls VfsMounts
  UnlinkedPaths FdTables Function
open AddressModel (wordSize)

variable {δ : Type} {dev : Prop} {top : TreeTop} {s s' t u : Vfs δ} {q c ino : ℕ} {name : Str}
  {dq dc : Dentry} {i : InodeMeta}

variable {e : DentryKind × ℕ} {path key : Str} {l : List Str} {d : Dentry} {x self : ℕ}
  {i' : InodeMeta} {v : Vfs δ}

def entryOf (s : Vfs δ) (c : ℕ) : Option (DentryKind × ℕ) :=
  (s.dentries c).map fun d => (d.kind, d.dInode)

def linksOf (s : Vfs δ) (ino : ℕ) : Set ℕ :=
  {c | (∃ q name, childOf s q name = some c) ∧ ∃ kind, entryOf s c = some (kind, ino)}

def Ext4File (s : Vfs δ) (ino : ℕ) : Prop :=
  (∃ c, entryOf s c = some (.ext4, ino)) ∧ ∃ i, s.inodes ino = some i ∧ i.iMode = .Regular

/-- Every link is counted. The links of an inode are all of one kind, and those of a file are in
directories of that kind. -/
structure LinkInv (s : Vfs δ) : Prop where
  inodes : ∀ c e, entryOf s c = some e → ∃ i, s.inodes e.2 = some i
  fresh : ∀ ino i, s.inodes ino = some i → ino < s.nextInode
  kinds : ∀ c c' kind kind' ino, entryOf s c = some (kind, ino) →
    entryOf s c' = some (kind', ino) → kind = kind'
  placed : ∀ q a c e e' i, childOf s q a = some c → entryOf s q = some e → entryOf s c = some e' →
    s.inodes e'.2 = some i → i.iMode = .Regular → (e'.1 = .ext4 ↔ e.1 = .ext4)
  counted : ∀ ino i, s.inodes ino = some i → i.iMode = .Regular →
    i.iLinkCount = (linksOf s ino).ncard

theorem entryOf_eq (h : s.dentries c = some d) : entryOf s c = some (d.kind, d.dInode) := by
  rw [entryOf,h,Option.map_some]

theorem exists_of_entryOf (h : entryOf s c = some e) :
    ∃ d, s.dentries c = some d ∧ e = (d.kind, d.dInode) := by
  obtain ⟨d,hd,he⟩ := Option.map_eq_some_iff.mp h
  exact ⟨d,hd,he.symm⟩

theorem linksOf_lt (inv : TreeInv dev top s) (ino : ℕ) :
    linksOf s ino ⊆ ↑(Finset.range s.nextDentry) := by
  rintro c ⟨-,kind,hc⟩
  obtain ⟨d,hd,-⟩ := exists_of_entryOf hc
  by_contra hge
  rw [inv.fresh c (by simpa using hge)] at hd
  cases hd

theorem linksOf_finite (inv : TreeInv dev top s) (ino : ℕ) : (linksOf s ino).Finite :=
  (Finset.finite_toSet _).subset (linksOf_lt inv ino)

theorem entryOf_congr (h : s'.dentries = s.dentries) : entryOf s' = entryOf s := by
  funext c
  rw [entryOf,entryOf,h]

theorem childOf_congr (h : s'.dentries = s.dentries) : childOf s' = childOf s := by
  funext q name
  rw [childOf,childOf,h]

theorem linksOf_congr (h : s'.dentries = s.dentries) : linksOf s' = linksOf s := by
  funext ino
  rw [linksOf,linksOf,entryOf_congr h,childOf_congr h]

theorem entryOf_same (h : SameTree s s') : entryOf s' = entryOf s := entryOf_congr h.1

theorem linksOf_same (h : SameTree s s') : linksOf s' = linksOf s := linksOf_congr h.1

section

variable (h : Attaching s q name c dq dc s') (ok : Attachable dev top s q name c dq dc)
include h ok

theorem entryOf_attach (x : ℕ) :
    entryOf s' x = if x = c then some (dc.kind, dc.dInode) else entryOf s x := by
  split_ifs with hx
  · rw [hx,entryOf_eq h.child]
  · by_cases hq : x = q
    · rw [hq,entryOf_eq h.parent,entryOf_eq ok.parent]
    · rw [entryOf,entryOf,h.others x hq hx]

theorem entryOf_attach_cases (hx : entryOf s' x = some e) :
    x = c ∧ e = (dc.kind, dc.dInode) ∨ x ≠ c ∧ entryOf s x = some e := by
  rw [entryOf_attach h ok] at hx
  split_ifs at hx with hxc
  · exact .inl ⟨hxc,(Option.some.inj hx).symm⟩
  · exact .inr ⟨hxc,hx⟩

theorem entryOf_attach_old (hfresh : s.dentries c = none)
    (hx : entryOf s x = some e) : entryOf s' x = some e := by
  rw [entryOf_attach h ok,if_neg]
  · exact hx
  · rintro rfl
    rw [entryOf,hfresh] at hx
    cases hx

end

theorem entryOf_detach (h : Detaching s q name c dq dc key s') : entryOf s' = entryOf s := by
  funext x
  by_cases hc : x = c
  · obtain ⟨p,hp⟩ := h.child
    rw [hc,entryOf_eq hp,entryOf_eq h.childBefore]
  · by_cases hq : x = q
    · rw [hq,entryOf_eq h.parent,entryOf_eq h.parentBefore]
    · rw [entryOf,entryOf,h.others x hq hc]

theorem linksOf_attach (h : Attaching s q name c dq dc s')
    (ok : Attachable dev top s q name c dq dc) (hfree : childOf s q name = none) (ino : ℕ) :
    linksOf s' ino = if ino = dc.dInode then insert c (linksOf s ino) else linksOf s ino := by
  ext x
  have hlisted : (∃ n a, childOf s' n a = some x) ↔ x = c ∨ ∃ n a, childOf s n a = some x := by
    constructor
    · rintro ⟨n,a,hedge⟩
      rw [h.childOf_eq ok] at hedge
      split at hedge
      · exact .inl (Option.some.inj hedge).symm
      · exact .inr ⟨n,a,hedge⟩
    · rintro (rfl | ⟨n,a,hedge⟩)
      · exact ⟨q,name,by rw [h.childOf_eq ok,if_pos ⟨rfl,rfl⟩]⟩
      · refine ⟨n,a,?_⟩
        rw [h.childOf_eq ok,if_neg,hedge]
        rintro ⟨rfl,rfl⟩
        rw [hfree] at hedge
        cases hedge
  have hnew : ∀ n a, childOf s n a ≠ some c := ok.noEdge
  by_cases hx : x = c
  · subst hx
    by_cases hino : ino = dc.dInode
    · simp [linksOf,hlisted,entryOf_attach h ok,hino]
    · simp [linksOf,entryOf_attach h ok,hnew,hino,Ne.symm hino]
  · by_cases hino : ino = dc.dInode <;> simp [linksOf,hlisted,entryOf_attach h ok,hx,hino]

theorem linksOf_detach (h : Detaching s q name c dq dc key s') (leaf : Leaf s c) (hn : top.named)
    (inv : TreeInv dev top s) (ino : ℕ) : linksOf s' ino = linksOf s ino \ {c} := by
  ext x
  have hlisted : (∃ n a, childOf s' n a = some x) ↔
      (∃ n a, childOf s n a = some x) ∧ x ≠ c := by
    constructor
    · rintro ⟨n,a,hedge⟩
      have hx : x ≠ c := by
        rintro rfl
        exact h.no_edge leaf inv (fun _ => hn) n a hedge
      rw [h.childOf_eq leaf] at hedge
      split at hedge
      · cases hedge
      · exact ⟨⟨n,a,hedge⟩,hx⟩
    · rintro ⟨⟨n,a,hedge⟩,hx⟩
      refine ⟨n,a,?_⟩
      rw [h.childOf_eq leaf,if_neg,hedge]
      rintro ⟨rfl,rfl⟩
      exact hx (Option.some.inj (hedge.symm.trans h.edge))
  simp only [linksOf,Set.mem_ofPred_eq,Set.mem_sdiff,Set.mem_singleton_iff,hlisted,
    entryOf_detach h]
  tauto

/-- What lookups do: entries and inodes are added, each inode with its link, and nothing is opened,
linked or removed. -/
structure Extends (s t : Vfs δ) : Prop where
  rmfiles : t.rmfiles = s.rmfiles
  entries : ∀ c e, entryOf s c = some e → entryOf t c = some e
  inodes : ∀ ino i, s.inodes ino = some i → t.inodes ino = some i
  added : ∀ ino i, t.inodes ino = some i → s.inodes ino = some i ∨
    s.inodes ino = none ∧ (∃ mode, i = ⟨mode, 1, 0⟩) ∧ (linksOf t ino).Nonempty
  links : ∀ ino i, s.inodes ino = some i → linksOf t ino = linksOf s ino

theorem Extends.refl (s : Vfs δ) : Extends s s :=
  ⟨rfl,fun _ _ h => h,fun _ _ h => h,fun _ _ h => .inl h,fun _ _ _ => rfl⟩

theorem Extends.trans (h : Extends s t) (h' : Extends t u) : Extends s u := by
  refine ⟨h'.rmfiles.trans h.rmfiles,fun c e hc => h'.entries c e (h.entries c e hc),
    fun ino i hi => h'.inodes ino i (h.inodes ino i hi),fun ino i hi => ?_,fun ino i hi => ?_⟩
  · rcases h'.added ino i hi with hold | ⟨hnone,hnew⟩
    · rcases h.added ino i hold with hold' | ⟨hnone,hnew,hlink⟩
      · exact .inl hold'
      · exact .inr ⟨hnone,hnew,(h'.links ino i hold).symm ▸ hlink⟩
    · refine .inr ⟨?_,hnew⟩
      by_contra hne
      obtain ⟨j,hj⟩ := Option.ne_none_iff_exists'.mp hne
      rw [h.inodes ino j hj] at hnone
      cases hnone
  · rw [h'.links ino i (h.inodes ino i hi),h.links ino i hi]

theorem LinkInv.inode_lt (h : LinkInv s) (he : entryOf s c = some e) :
    e.2 < s.nextInode := by
  obtain ⟨i,hi⟩ := h.inodes c e he
  exact h.fresh e.2 i hi

theorem LinkInv.of_same (h : LinkInv s) (hd : t.dentries = s.dentries) (hi : t.inodes = s.inodes)
    (hn : t.nextInode = s.nextInode) : LinkInv t := by
  constructor
  all_goals simp only [entryOf_congr hd,childOf_congr hd,linksOf_congr hd,hi,hn]
  · exact h.inodes
  · exact h.fresh
  · exact h.kinds
  · exact h.placed
  · exact h.counted

/-- One inode changes its counts, and edges go. -/
theorem LinkInv.changed (h : LinkInv s) (hentry : entryOf t = entryOf s)
    (hchild : ∀ n a x, childOf t n a = some x → childOf s n a = some x) (hi : s.inodes ino = some i)
    (hmode : i'.iMode = i.iMode) (hinodes : t.inodes = update s.inodes ino (some i'))
    (hnext : t.nextInode = s.nextInode)
    (hcount : i.iMode = .Regular → i'.iLinkCount = (linksOf t ino).ncard)
    (hlinks : ∀ n, n ≠ ino → linksOf t n = linksOf s n) : LinkInv t := by
  have hold : ∀ n j, t.inodes n = some j → ∃ k, s.inodes n = some k ∧ k.iMode = j.iMode := by
    intro n j hj
    rcases update_cases (hinodes ▸ hj) with ⟨rfl,rfl⟩ | ⟨-,hj⟩
    · exact ⟨i,hi,hmode.symm⟩
    · exact ⟨j,hj,rfl⟩
  refine ⟨fun x e hx => ?_,fun n j hj => ?_,?_,fun n a x e e' j hedge hn hx hj hreg => ?_,
    fun n j hj hreg => ?_⟩
  · obtain ⟨j,hj⟩ := h.inodes x e (hentry ▸ hx)
    rw [hinodes]
    by_cases heq : e.2 = ino
    · exact ⟨i',by rw [heq,update_self]⟩
    · exact ⟨j,by rw [update_of_ne heq,hj]⟩
  · obtain ⟨k,hk,-⟩ := hold n j hj
    rw [hnext]
    exact h.fresh n k hk
  · rw [hentry]
    exact h.kinds
  · rw [hentry] at hn hx
    obtain ⟨k,hk,hkm⟩ := hold _ j hj
    exact h.placed n a x e e' k (hchild n a x hedge) hn hx hk (hkm.trans hreg)
  · rcases update_cases (hinodes ▸ hj) with ⟨rfl,rfl⟩ | ⟨hne,hj⟩
    · exact hcount (hmode.symm.trans hreg)
    · rw [hlinks n hne]
      exact h.counted n j hj hreg

theorem LinkInv.attached (h : LinkInv s) (hv : v.dentries = s.dentries)
    (ok : Attachable dev top v q name c dq dc) (hattach : Attaching v q name c dq dc t)
    (hfree : childOf v q name = none) (hfresh : v.dentries c = none)
    (hkind : dc.kind = .ext4 ↔ dq.kind = .ext4)
    (hkinds : ∀ x kind, entryOf s x = some (kind, dc.dInode) → kind = dc.kind)
    (hinodes : t.inodes = update s.inodes dc.dInode (some i))
    (hmode : ∀ j, s.inodes dc.dInode = some j → j.iMode = i.iMode)
    (hnext : dc.dInode < t.nextInode ∧ s.nextInode ≤ t.nextInode)
    (hfinite : (linksOf s dc.dInode).Finite)
    (hcount : i.iMode = .Regular → i.iLinkCount = (linksOf s dc.dInode).ncard + 1) : LinkInv t := by
  have hentry {x : ℕ} {e : DentryKind × ℕ} (hx : entryOf t x = some e) :
      x = c ∧ e = (dc.kind, dc.dInode) ∨ x ≠ c ∧ entryOf s x = some e := by
    rw [← entryOf_congr hv]
    exact entryOf_attach_cases hattach ok hx
  have hinode {n : ℕ} {j : InodeMeta} (hj : t.inodes n = some j) := update_cases (hinodes ▸ hj)
  refine ⟨fun x e hx => ?_,fun n j hj => ?_,fun x x' kind kind' n hx hx' => ?_,
    fun n a x e e' j hedge hn hx hj hreg => ?_,fun n j hj hreg => ?_⟩
  · rw [hinodes]
    by_cases heq : e.2 = dc.dInode
    · exact ⟨i,by rw [heq,update_self]⟩
    · rcases hentry hx with ⟨-,rfl⟩ | ⟨-,hx⟩
      · exact absurd rfl heq
      · obtain ⟨j,hj⟩ := h.inodes x e hx
        exact ⟨j,(update_of_ne heq _ _).trans hj⟩
  · rcases hinode hj with ⟨rfl,-⟩ | ⟨-,hj⟩
    · exact hnext.1
    · exact (h.fresh n j hj).trans_le hnext.2
  · rcases hentry hx with ⟨-,he⟩ | ⟨-,hx⟩ <;> rcases hentry hx' with ⟨-,he'⟩ | ⟨-,hx'⟩
    · rw [(Prod.mk.inj he).1,(Prod.mk.inj he').1]
    · rw [(Prod.mk.inj he).1,hkinds x' kind' ((Prod.mk.inj he).2 ▸ hx')]
    · rw [(Prod.mk.inj he').1,hkinds x kind ((Prod.mk.inj he').2 ▸ hx)]
    · exact h.kinds x x' kind kind' n hx hx'
  · rw [hattach.childOf_eq ok] at hedge
    split_ifs at hedge with heq
    · obtain ⟨rfl,rfl⟩ := heq
      obtain rfl := Option.some.inj hedge
      obtain rfl := Option.some.inj ((entryOf_eq hattach.parent).symm.trans hn)
      obtain rfl := Option.some.inj ((entryOf_eq hattach.child).symm.trans hx)
      exact hkind
    · have hnc : n ≠ c := by
        rintro rfl
        rw [ok.leaf a] at hedge
        cases hedge
      have hxc : x ≠ c := by
        rintro rfl
        exact ok.noEdge n a hedge
      have hn' := ((hentry hn).resolve_left fun heq => hnc heq.1).2
      have hx' := ((hentry hx).resolve_left fun heq => hxc heq.1).2
      rw [childOf_congr hv] at hedge
      rcases hinode hj with ⟨heq,rfl⟩ | ⟨-,hj⟩
      · obtain ⟨k,hk⟩ := h.inodes x e' hx'
        exact h.placed n a x e e' k hedge hn' hx' hk ((hmode k (heq ▸ hk)).trans hreg)
      · exact h.placed n a x e e' j hedge hn' hx' hj hreg
  · rw [linksOf_attach hattach ok hfree,linksOf_congr hv]
    rcases hinode hj with ⟨rfl,rfl⟩ | ⟨hne,hj⟩
    · have hnot : c ∉ linksOf s dc.dInode := by
        rintro ⟨-,kind,hc⟩
        rw [entryOf,← hv,hfresh] at hc
        cases hc
      rw [if_pos rfl,Set.ncard_insert_of_notMem hnot hfinite]
      exact hcount hreg
    · rw [if_neg hne]
      exact h.counted n j hj hreg

theorem newEntry_extends {mode : InodeMode} (h : LinkInv s)
    (ok : Attachable dev top (withInode s mode) q name c dq dc)
    (hattach : Attaching (withInode s mode) q name c dq dc s')
    (hfree : childOf s q name = none) (hfresh : s.dentries c = none)
    (hino : dc.dInode = s.nextInode) (hkind : dc.kind = .ext4 ↔ dq.kind = .ext4)
    (hinodes : s'.inodes = (withInode s mode).inodes) (hnext : s'.nextInode = s.nextInode + 1)
    (hrm : s'.rmfiles = s.rmfiles) : LinkInv s' ∧ Extends s s' := by
  have hlinks : ∀ ino, linksOf s' ino =
      if ino = dc.dInode then insert c (linksOf s ino) else linksOf s ino :=
    fun ino => linksOf_attach hattach ok hfree ino
  have hunused : s.inodes s.nextInode = none := by
    by_contra hne
    obtain ⟨j,hj⟩ := Option.ne_none_iff_exists'.mp hne
    exact (h.fresh _ j hj).ne rfl
  have hempty : linksOf s s.nextInode = ∅ := by
    ext x
    simp only [Set.mem_empty_iff_false,iff_false]
    rintro ⟨-,kind,hx⟩
    exact (h.inode_lt hx).ne rfl
  have hadded : s'.inodes = update s.inodes s.nextInode (some ⟨mode,1,0⟩) := hinodes
  constructor
  · have hsame : (withInode s mode).dentries = s.dentries := rfl
    refine h.attached hsame ok hattach hfree hfresh hkind (fun x kind hx => ?_) (hino ▸ hadded)
      (fun j hj => ?_) (by omega) ?_ fun _ => ?_
    · exact absurd hino (h.inode_lt hx).ne
    · rw [hino,hunused] at hj
      cases hj
    · rw [hino,hempty]
      exact Set.finite_empty
    · rw [hino,hempty,Set.ncard_empty]
  · refine ⟨hrm,fun x e hx => entryOf_attach_old hattach ok hfresh hx,fun ino i hi => ?_,
      fun ino i hi => ?_,fun ino i hi => ?_⟩
    · rw [hadded]
      exact (update_of_ne (h.fresh ino i hi).ne _ _).trans hi
    · rcases update_cases (hadded ▸ hi) with ⟨rfl,rfl⟩ | ⟨-,hi⟩
      · refine .inr ⟨hunused,⟨mode,rfl⟩,c,?_⟩
        rw [hlinks,if_pos hino.symm]
        exact Set.mem_insert _ _
      · exact .inl hi
    · rw [hlinks,hino,if_neg (h.fresh ino i hi).ne]

theorem Extends.of_same (h : Extends s t) (hd : u.dentries = t.dentries) (hi : u.inodes = t.inodes)
    (hr : u.rmfiles = t.rmfiles) : Extends s u := by
  constructor
  all_goals simp only [entryOf_congr hd,linksOf_congr hd,hi,hr]
  · exact h.rmfiles
  · exact h.entries
  · exact h.inodes
  · exact h.added
  · exact h.links

theorem extends_kept (s : Vfs δ) : Kept dev top fun t => LinkInv t ∧ Extends s t := by
  refine ⟨fun disk h => ?_,fun path c h => ?_,?_⟩
  · exact ⟨h.1.of_same rfl rfl rfl,h.2.of_same rfl rfl rfl⟩
  · exact ⟨h.1.of_same rfl rfl rfl,h.2.of_same rfl rfl rfl⟩
  · intro t q dq l name mode inv hat hq hk hname hplain hfree h
    have hsame : SameTree t (withInode t mode) := ⟨rfl,rfl,rfl,rfl⟩
    have inv₁ := hsame.treeInv inv
    have ok := attachable_entry inv₁ hq (hsame.at.mpr hat) (by rw [hk]; exact ext4_ne_device) hname
      hplain (fun e he => absurd (hfree.symm.trans he) (by simp)) .ext4 ext4_ne_device t.nextInode
    have hattach := addEntry_attaching inv₁ hq name
      ⟨.ext4,formatPath name,joinName name dq.dPath,t.nextInode,some q,∅⟩
    obtain ⟨hlinks,hext⟩ := newEntry_extends h.1 ok hattach hfree (inv.fresh _ le_rfl) rfl
      (by simp [hk]) rfl rfl rfl
    exact ⟨hlinks,h.2.trans hext⟩

structure Looked (dev : Prop) (top : TreeTop) (s t : Vfs δ) : Prop where
  tree : TreeInv dev top t
  links : LinkInv t
  ext : Extends s t

theorem pathToDentry_looks (lw : Lwext4 δ) (inv : TreeInv dev top s) (h : LinkInv s)
    (hplain : top.named → PlainPath path) :
    Holds (pathToDentry lw path) s
      (fun r t => Found dev top path s r t ∧ Looked dev top s t) Panics :=
  (pathToDentry_keeps lw (extends_kept s) inv hplain ⟨h,Extends.refl s⟩).imp
    fun _ _ hf => ⟨hf.1,hf.1.inv,hf.2.1,hf.2.2⟩

section Opening

variable (lw : Lwext4 δ)

theorem LinkInv.setOpen (h : LinkInv s) (hi : s.inodes ino = some i) (count : ℕ) :
    LinkInv (s.setInode ino { i with iOpenCount := count }) :=
  have hmode : ({ i with iOpenCount := count } : InodeMeta).iMode = i.iMode := rfl
  h.changed rfl (fun _ _ _ hedge => hedge) hi hmode rfl rfl (h.counted ino i hi) fun _ _ => rfl

def Opened (dev : Prop) (top : TreeTop) (s : Vfs δ) (c : ℕ) (t : Vfs δ) : Prop :=
  ∃ u d i, Looked dev top s u ∧ u.dentries c = some d ∧ u.inodes d.dInode = some i ∧
    t = u.setInode d.dInode { i with iOpenCount := i.iOpenCount + 1 }

theorem openDentry_opens (h : Looked dev top s u) (c : ℕ) (flags : Ext4FileModel.OpenFlags) :
    Holds (openDentry c flags) u (fun _ t => Opened dev top s c t) Panics := by
  refine dentry_bind fun d hd => ?_
  refine inodeMeta_bind fun i hi => ?_
  refine holds_bind_ok (t := u.setInode d.dInode { i with iOpenCount := i.iOpenCount + 1 }) rfl ?_
  split
  · exact stop_after
  · exact holds_pure ⟨u,d,i,h,hd,hi,rfl⟩

theorem create_extends (inv : TreeInv dev top t) (h : LinkInv t ∧ Extends s t)
    (hq : t.dentries q = some dq) (hat : dq.kind ≠ .device → At top t l q)
    (hname : ValidName name) (hplain : top.named → Plain name) (hfree : childOf t q name = none) :
    Holds (create lw q name .Regular) t
      (fun _ t' => TreeInv dev top t' ∧ LinkInv t' ∧ Extends s t') (After (Looked dev top s)) := by
  have hkept : Kept dev top fun t => LinkInv t ∧ Extends s t := extends_kept s
  have hdisk : ∀ disk : δ, TreeInv dev top { t with disk := disk } ∧
      LinkInv { t with disk := disk } ∧ Extends s { t with disk := disk } := fun disk =>
    ⟨(DiskOnly.sameTree ⟨disk,rfl⟩).treeInv inv,hkept.disk disk h⟩
  refine (create_creates lw hq hname .Regular).mono ?_ ?_
  · rintro _ _ ⟨disk,hk,rfl,rfl⟩
    obtain ⟨inv₀,h₀⟩ := hdisk disk
    have hsame : SameTree { t with disk := disk } (withInode { t with disk := disk } .Regular) :=
      ⟨rfl,rfl,rfl,rfl⟩
    have inv₁ := hsame.treeInv inv₀
    obtain ⟨ok,hattach⟩ := created_attaching inv₁ hq (hat hk) hk hname hplain
      (fun e he => absurd (hfree.symm.trans he) (by simp)) t.nextInode
    obtain ⟨hlinks,hext⟩ := newEntry_extends h₀.1 ok hattach hfree (inv.fresh _ le_rfl) rfl
      Iff.rfl rfl rfl rfl
    exact ⟨hattach.treeInv ok inv₁,hlinks,h₀.2.trans hext⟩
  · rintro _ _ ⟨disk,rfl⟩ _ -
    obtain ⟨inv₀,hlinks,hext⟩ := hdisk disk
    exact ⟨inv₀,hlinks,hext⟩

theorem sysOpenat_opens (inv : TreeInv dev top s) (h : LinkInv s)
    (hplain : PlainPath path) (flags : Ext4FileModel.OpenFlags) :
    Holds (sysOpenat lw path flags) s (fun r t => Opened dev top s r.1 t)
      (After (Looked dev top s)) :=
  sysOpenat_rule lw (extends_kept s) inv (fun _ => hplain) ⟨h,Extends.refl s⟩ flags
    (fun _ inv h => ⟨inv,h.1,h.2⟩)
    (fun _ _ _ _ _ inv h hd hat hname hplain hfree =>
      create_extends lw inv h hd hat hname hplain hfree)
    fun _ c flags inv h => holds_after (openDentry_opens ⟨inv,h.1,h.2⟩ c flags)

def NoInterp (lw : Lwext4 δ) : Vfs δ → List Str → Prop
  | _, [] => True
  | s, path :: rest => ∃ t, pathToDentry lw path s = .ok none t ∧ NoInterp lw t rest

theorem loadDlInterp_opens (program : ℕ) (interps : List Str) (h : Looked dev top s u)
    (hplain : ∀ path ∈ interps, PlainPath path) :
    Holds (loadDlInterp lw program interps) u
      (fun _ t => NoInterp lw u interps ∧ Looked dev top s t ∨
        ¬ NoInterp lw u interps ∧ ∃ c, Opened dev top s c t) Panics := by
  induction interps generalizing u with
  | nil => exact holds_pure (.inl ⟨trivial,h⟩)
  | cons path rest ih =>
    have hlook := pathToDentry_looks lw h.tree h.links (fun _ => hplain path List.mem_cons_self)
    cases hcall : pathToDentry lw path u with
    | error e t => exact holds_error (bind_error hcall) (hlook.of_error hcall)
    | ok r t =>
      obtain ⟨-,ht⟩ := hlook.of_ok hcall
      have hlooked : Looked dev top s t := ⟨ht.tree,ht.links,h.ext.trans ht.ext⟩
      refine holds_bind_ok hcall ?_
      cases r with
      | some found =>
        dsimp only
        split
        · exact stop_after
        · refine (openDentry_opens hlooked found _).imp fun _ _ hopened => .inr ⟨?_,found,hopened⟩
          rintro ⟨t',hnone,-⟩
          cases hcall.symm.trans hnone
      | none =>
        have hiff : NoInterp lw u (path :: rest) ↔ NoInterp lw t rest := by
          constructor
          · rintro ⟨t',ht',hrest⟩
            cases hcall.symm.trans ht'
            exact hrest
          · exact fun hrest => ⟨t,hcall,hrest⟩
        rw [hiff]
        exact ih hlooked fun p hp => hplain p (List.mem_cons_of_mem path hp)

end Opening

section Linking

variable (lw : Lwext4 δ)

structure Spares (s t : Vfs δ) : Prop where
  rmfiles : t.rmfiles = s.rmfiles
  entries : ∀ c e, entryOf s c = some e → entryOf t c = some e
  inodes : ∀ ino i, s.inodes ino = some i →
    ∃ links, t.inodes ino = some { i with iLinkCount := links }
  added : ∀ ino i, t.inodes ino = some i → s.inodes ino ≠ none ∨
    i.iOpenCount = 0 ∧ (linksOf t ino).Nonempty
  links : ∀ ino i, s.inodes ino = some i → linksOf s ino ⊆ linksOf t ino

theorem Extends.spares (h : Extends s t) : Spares s t := by
  refine ⟨h.rmfiles,h.entries,fun ino i hi => ⟨i.iLinkCount,h.inodes ino i hi⟩,
    fun ino i hi => ?_,fun ino i hi => (h.links ino i hi).ge⟩
  rcases h.added ino i hi with hold | ⟨-,⟨mode,rfl⟩,hlink⟩
  · exact .inl (by simp [hold])
  · exact .inr ⟨rfl,hlink⟩

theorem Spares.trans (h : Spares s t) (h' : Spares t u) : Spares s u := by
  refine ⟨h'.rmfiles.trans h.rmfiles,fun c e hc => h'.entries c e (h.entries c e hc),
    fun ino i hi => ?_,fun ino i hi => ?_,fun ino i hi => ?_⟩
  · obtain ⟨_,ht⟩ := h.inodes ino i hi
    obtain ⟨links,hu⟩ := h'.inodes ino _ ht
    exact ⟨links,hu⟩
  · by_cases hs : s.inodes ino = none
    · right
      cases ht : t.inodes ino with
      | none => exact (h'.added ino i hi).resolve_left (not_not.mpr ht)
      | some j =>
        obtain ⟨links,hu⟩ := h'.inodes ino j ht
        rw [hi,Option.some.injEq] at hu
        obtain ⟨hzero,hlink⟩ := (h.added ino j ht).resolve_left (not_not.mpr hs)
        rw [hu]
        exact ⟨hzero,hlink.mono (h'.links ino j ht)⟩
    · exact .inl hs
  · obtain ⟨_,ht⟩ := h.inodes ino i hi
    exact (h.links ino i hi).trans (h'.links ino _ ht)

theorem newLink_counts (inv : TreeInv dev top u) (h : LinkInv u) (hi : u.inodes ino = some i)
    (ok : Attachable dev top (u.setInode ino { i with iLinkCount := i.iLinkCount + 1 }) q name c
      dq dc)
    (hattach : Attaching (u.setInode ino { i with iLinkCount := i.iLinkCount + 1 }) q name c dq dc
      t) (hself : entryOf u self = some (dc.kind, ino)) (hfree : childOf u q name = none)
    (hfresh : u.dentries c = none) (hino : dc.dInode = ino)
    (hkind : dc.kind = .ext4 ↔ dq.kind = .ext4) (hinodes : t.inodes =
      update u.inodes ino (some { i with iLinkCount := i.iLinkCount + 1 }))
    (hnext : t.nextInode = u.nextInode) (hrm : t.rmfiles = u.rmfiles) : LinkInv t ∧ Spares u t := by
  subst hino
  constructor
  · have hsame : (u.setInode dc.dInode
        { i with iLinkCount := i.iLinkCount + 1 }).dentries = u.dentries := rfl
    refine h.attached hsame ok hattach hfree hfresh hkind
      (fun x kind hx => h.kinds x self kind dc.kind dc.dInode hx hself) hinodes (fun j hj => ?_)
      ⟨?_,hnext.ge⟩ (linksOf_finite inv dc.dInode) fun hreg => ?_
    · rw [Option.some.inj (hj.symm.trans hi)]
    · rw [hnext]
      exact h.fresh _ i hi
    · exact congrArg (· + 1) (h.counted _ i hi hreg)
  · refine ⟨hrm,fun x e hx => entryOf_attach_old hattach ok hfresh hx,fun n j hj => ?_,
      fun n j hj => ?_,fun n j _ => ?_⟩
    · rw [hinodes]
      by_cases heq : n = dc.dInode
      · subst heq
        cases hi.symm.trans hj
        exact ⟨_,update_self _ _ _⟩
      · exact ⟨j.iLinkCount,(update_of_ne heq _ _).trans hj⟩
    · rcases update_cases (hinodes ▸ hj) with ⟨rfl,-⟩ | ⟨-,hj⟩
      · exact .inl (by simp [hi])
      · exact .inl (by simp [hj])
    · rw [linksOf_attach hattach ok hfree]
      split
      · exact Set.subset_insert _ _
      · exact subset_rfl

structure Calm (dev : Prop) (top : TreeTop) (s t : Vfs δ) : Prop where
  tree : TreeInv dev top t
  links : LinkInv t
  spares : Spares s t

theorem Looked.calm (h : Looked dev top s t) : Calm dev top s t :=
  ⟨h.tree,h.links,h.ext.spares⟩

theorem link_calm (h : Looked dev top s u) (hat : At top u l q) (hq : u.dentries q = some dq)
    (hk : dq.kind ≠ .device) (hname : ValidName name) (hplain : top.named → Plain name)
    (hfree : childOf u q name = none)
    (hkind : ∀ d, u.dentries self = some d → d.kind ≠ .device →
      (d.kind = .ext4 ↔ dq.kind = .ext4)) :
    Holds (link lw self q name) u (fun _ t => Calm dev top s t) (After (Calm dev top s)) := by
  refine dentry_bind fun d hd => ?_
  split
  · exact stop_after
  · rename_i hkd
    refine inodeMeta_bind fun i hi => ?_
    refine holds_bind_ok (t := u.setInode d.dInode { i with iLinkCount := i.iLinkCount + 1 }) rfl ?_
    have hsame : SameTree u (u.setInode d.dInode { i with iLinkCount := i.iLinkCount + 1 }) :=
      ⟨rfl,rfl,rfl,rfl⟩
    have inv₁ := hsame.treeInv h.tree
    refine holds_bind_ok (dentry_eq hq) ?_
    refine holds_bind_ok (cwdAndName_eq hname dq.dPath) ?_
    have ok := attachable_entry inv₁ hq (hsame.at.mpr hat) hk hname hplain
      (fun e he => absurd (hfree.symm.trans he) (by simp)) d.kind hkd d.dInode
    have hattach := addEntry_attaching inv₁ hq name
      ⟨d.kind,formatPath name,joinName name dq.dPath,d.dInode,some q,∅⟩
    have inv₂ := hattach.treeInv ok inv₁
    have hself := entryOf_eq hd
    have hcounts := newLink_counts h.tree h.links hi ok hattach hself
    obtain ⟨hlinks,hspares⟩ := hcounts hfree (h.tree.fresh _ le_rfl) rfl (hkind d hd hkd) rfl rfl
      rfl
    refine holds_bind_ok rfl (holds_bind_ok rfl ?_)
    have hcalm := h.ext.spares.trans hspares
    split
    · exact onDisk_after _ fun disk => ⟨(DiskOnly.sameTree ⟨disk,rfl⟩).treeInv inv₂,
        hlinks.of_same rfl rfl rfl,
        ⟨hcalm.rmfiles,hcalm.entries,hcalm.inodes,hcalm.added,hcalm.links⟩⟩
    · exact holds_pure ⟨inv₂,hlinks,hcalm⟩

def OnExt4 (s : Vfs δ) (path : Str) : Prop :=
  ∀ c d, At (topOf s) s (components path) c → s.dentries c = some d → d.kind = .ext4

theorem kind_of_grown {P : List Str → Str → Prop}
    (hon : ∀ c d, At top s l c → s.dentries c = some d → d.kind = .ext4) (hg : Grows top P s t)
    (inv : TreeInv dev top s) (hat : At top t l c) (hd : t.dentries c = some d) :
    d.kind = .ext4 := by
  rcases hg.kinds c d hd with hext4 | ⟨d',hd',hkind,-⟩
  · exact hext4
  · rw [← hkind]
    exact hon c d' (hg.at_before inv hat hd') hd'

structure Linkable (s : Vfs δ) (oldPath newPath : Str) : Prop where
  plainOld : PlainPath oldPath
  plainNew : PlainPath newPath
  old : OnExt4 s oldPath
  parent : OnExt4 s (parentPath newPath)
  noDevice : NoDevice (topOf s) s (parentPath newPath)
  nonempty : components newPath ≠ []
  free : ∀ c, ¬ At (topOf s) s (components newPath) c
  apart : ¬ components newPath <+: components oldPath

theorem sysLinkat_calm (inv : Stands dev s) (h : LinkInv s) {oldPath newPath : Str}
    (hlinkable : s.cache.lookup newPath = none → Linkable s oldPath newPath) :
    Holds (sysLinkat lw oldPath newPath) s (fun _ t => Calm dev (topOf s) s t)
      (After (Calm dev (topOf s) s)) := by
  have hstart : Calm dev (topOf s) s s := ⟨inv,h,(Extends.refl s).spares⟩
  cases hcache : s.cache.lookup newPath with
  | some found =>
    refine holds_get ?_
    rw [hcache,Option.isSome_some,if_pos rfl]
    exact fail_after hstart
  | none =>
    have hl := hlinkable hcache
    obtain ⟨l,a,hp⟩ := (List.eq_nil_or_concat' (components newPath)).resolve_left hl.nonempty
    obtain ⟨hname,hplain⟩ := hl.plainNew.last hp
    refine sysLinkat_rule lw (extends_kept s) inv hl.plainOld hl.plainNew hp hl.noDevice
      ⟨h,Extends.refl s⟩ (fun _ inv h => ⟨inv,h.1,h.2.spares⟩) ?_
    intro t₁ t old fa d hf invt hg ht hat hd hk
    have hparent := hl.parent
    rw [OnExt4,components_parentPath hp] at hparent
    have hfree := hl.free
    have hapart := hl.apart
    rw [hp] at hfree hapart
    have hfree₁ := hf.grows.absent inv hf.inv hfree hapart
    have hnot : ¬ Along l l a := fun h => by simpa using h.length_le
    have hfree₂ := hg.absent hf.inv invt hfree₁ hnot
    refine link_calm lw ⟨invt,ht.1,ht.2⟩ hat hd hk hname (fun _ => hplain)
      (Option.eq_none_iff_forall_ne_some.mpr fun e he => hfree₂ e (hat.child he)) ?_
    intro d' hd' hkd'
    have hgrows : Grows (topOf s) (fun _ _ => True) s t :=
      (hf.grows.imp fun _ _ _ => trivial).trans (hg.imp fun _ _ _ => trivial)
    have hfa := kind_of_grown hparent hgrows inv hat hd
    obtain ⟨d₁,hd₁,himp⟩ := hf.entry old rfl
    obtain ⟨_,hkept⟩ := hg.kept old d₁ hd₁
    cases hkept.symm.trans hd'
    simp [kind_of_grown hl.old hf.grows inv (himp hkd') hd₁,hfa]

end Linking

section Unlinking

variable (lw : Lwext4 δ)

theorem wordPred_eq {n : ℕ} (hpos : 0 < n) (hle : n ≤ wordSize) : wordPred n = n - 1 := by
  unfold wordPred wordSize at *
  omega

/-- What a removal asks of the inode: the call goes to the library with the last link of a file
that nobody has open. -/
def LastLink (t : Vfs δ) (d : Dentry) (i : InodeMeta) : Prop :=
  i.iMode = .Regular ∧ d.kind = .ext4 ∧ linksOf t d.dInode = ∅ ∧ i.iOpenCount = 0

structure Unlinked (dev : Prop) (top : TreeTop) (u : Vfs δ) (c : ℕ) (d : Dentry) (t : Vfs δ) :
    Prop where
  tree : TreeInv dev top t
  links : LinkInv t
  entries : entryOf t = entryOf u
  inodes : ∀ ino, (t.inodes ino).map (fun i => (i.iMode, i.iOpenCount)) =
    (u.inodes ino).map fun i => (i.iMode, i.iOpenCount)
  linksOf : ∀ ino, linksOf t ino = LinkCounts.linksOf u ino \ {c}
  gone : ∀ x, ¬ At top t (components d.dPath) x
  calls : ∀ i, u.inodes d.dInode = some i →
    LastLink t d i ∧ t.rmfiles = u.rmfiles ++ [(d.dInode, d.dPath)] ∨
    ¬ LastLink t d i ∧ t.rmfiles = u.rmfiles

theorem mem_linksOf (hedge : childOf u q name = some c) (hd : u.dentries c = some d) (ino : ℕ) :
    c ∈ linksOf u ino ↔ d.dInode = ino := by
  constructor
  · rintro ⟨-,kind,hc⟩
    rw [entryOf_eq hd] at hc
    exact (Prod.mk.inj (Option.some.inj hc)).2
  · rintro rfl
    exact ⟨⟨q,name,hedge⟩,d.kind,entryOf_eq hd⟩

theorem unlinked_counts (inv : TreeInv dev top u) (hn : top.named) (h : LinkInv u)
    (hdet : Detaching u q name c dq d key v) (leaf : Leaf u c) (hsame : SameTree v t)
    (hi : u.inodes d.dInode = some i) (hmode : i'.iMode = i.iMode)
    (hcount : i.iMode = .Regular → i'.iLinkCount + 1 = i.iLinkCount)
    (hinodes : t.inodes = update u.inodes d.dInode (some i'))
    (hnext : t.nextInode = u.nextInode) : LinkInv t := by
  have hentry : entryOf t = entryOf u := (entryOf_same hsame).trans (entryOf_detach hdet)
  have hlinks : ∀ ino, linksOf t ino = linksOf u ino \ {c} := fun ino => by
    rw [linksOf_same hsame]
    exact linksOf_detach hdet leaf hn inv ino
  refine h.changed hentry (fun n a x hedge => ?_) hi hmode hinodes hnext (fun hreg => ?_)
    fun n hne => ?_
  · rw [hsame.childOf_eq,hdet.childOf_eq leaf] at hedge
    split at hedge
    · cases hedge
    · exact hedge
  · have hmem := (mem_linksOf hdet.edge hdet.childBefore d.dInode).mpr rfl
    have hold := h.counted _ i hi hreg
    have hcard := Set.ncard_sdiff_singleton_add_one hmem (linksOf_finite inv d.dInode)
    have hstep := hcount hreg
    rw [hlinks]
    omega
  · rw [hlinks,Set.sdiff_singleton_eq_self fun hmem =>
      hne ((mem_linksOf hdet.edge hdet.childBefore n).mp hmem).symm]

theorem Detaching.emptied (hdet : Detaching u q name c dq d key v) (leaf : Leaf u c)
    (inv : TreeInv dev top u) (hn : top.named) (hk : d.kind ≠ .device)
    (hat : At top u l c) (x : ℕ) : ¬ At top v (components d.dPath) x := by
  intro hx
  have hbefore : At top u (components d.dPath) x := by
    obtain ⟨r,hr,hl⟩ := hx
    refine ⟨r,hr,hl.mono fun n a e he => ?_⟩
    rw [hdet.childOf_eq leaf] at he
    split at he
    · cases he
    · exact he
  rw [inv.components_of_at hat hdet.childBefore hk] at hbefore hx
  obtain rfl := hbefore.unique hat
  obtain ⟨r,hr,hl⟩ := hx
  cases hl with
  | root => exact inv.root_no_edge hr hdet.edge
  | step _ edge => exact hdet.no_edge leaf inv (fun _ => hn) _ _ edge

theorem unlink_unlinks (hn : top.named) (inv : TreeInv dev top u) (h : LinkInv u)
    (hat : At top u l c) (hd : u.dentries c = some d)
    (hedge : childOf u q d.dName = some c) (leaf : Leaf u c) (hk : d.kind ≠ .device)
    (hfit : ∀ i, u.inodes d.dInode = some i → i.iLinkCount ≤ wordSize) :
    Holds (unlink lw q c) u (fun _ t => Unlinked dev top u c d t)
      (After fun t => Unlinked dev top u c d t) := by
  obtain ⟨dq,dc,hq,hc,hkq,-,hname,-⟩ := inv.edge _ _ _ hedge
  obtain rfl : dc = d := Option.some.inj (hc.symm.trans hd)
  have hne : c ≠ q := by
    rintro rfl
    rw [leaf] at hedge
    cases hedge
  have hdet : Detaching u q dc.dName c dq dc dc.dPath (unlinked u q c dc) :=
    unlinked_detaching hedge hq hc hne
  have inv₁ := hdet.treeInv leaf (fun _ => hn) inv
  obtain ⟨i,hi⟩ : ∃ i, u.inodes dc.dInode = some i := h.inodes c _ (entryOf_eq hd)
  have hfinish : ∀ t i', SameTree (unlinked u q c dc) t →
      i'.iMode = i.iMode → i'.iOpenCount = i.iOpenCount →
      (i.iMode = .Regular → i'.iLinkCount + 1 = i.iLinkCount) →
      t.inodes = update u.inodes dc.dInode (some i') → t.nextInode = u.nextInode →
      (LastLink t dc i ∧ t.rmfiles = u.rmfiles ++ [(dc.dInode, dc.dPath)] ∨
        ¬ LastLink t dc i ∧ t.rmfiles = u.rmfiles) → Unlinked dev top u c dc t := by
    intro t i' hsame hmode hopen hcount hinodes hnext hcalls
    refine ⟨hsame.treeInv inv₁,unlinked_counts inv hn h hdet leaf hsame hi hmode hcount hinodes
      hnext,(entryOf_same hsame).trans (entryOf_detach hdet),fun ino => ?_,fun ino => ?_,
      fun x hx => Detaching.emptied hdet leaf inv hn hk hat x (hsame.at.mp hx),fun j hj => ?_⟩
    · rw [hinodes]
      by_cases heq : ino = dc.dInode
      · subst heq
        rw [update_self,hi,Option.map_some,Option.map_some,hmode,hopen]
      · rw [update_of_ne heq]
    · rw [linksOf_same hsame]
      exact linksOf_detach hdet leaf hn inv ino
    · cases hi.symm.trans hj
      exact hcalls
  refine holds_bind_ok (dentry_eq hq) ?_
  rw [if_neg hkq]
  refine holds_bind_ok (dentry_eq hc) (holds_bind_ok (t := unlinked u q c dc) rfl ?_)
  refine holds_bind_ok (inodeMeta_eq hi) ?_
  split
  · rename_i hreg
    have hcount := h.counted _ i hi hreg
    have hmem := (mem_linksOf hedge hd dc.dInode).mpr rfl
    have hcard := Set.ncard_sdiff_singleton_add_one hmem (linksOf_finite inv dc.dInode)
    have hpred := wordPred_eq (n := i.iLinkCount) (by omega) (hfit i hi)
    have hstep : wordPred i.iLinkCount + 1 = i.iLinkCount := by omega
    have hkind := h.placed _ _ _ _ _ i hedge (entryOf_eq hq) (entryOf_eq hd) hi hreg
    have hlast : ∀ t, SameTree (unlinked u q c dc) t → (LastLink t dc i ↔
        dq.kind = .ext4 ∧ wordPred i.iLinkCount = 0 ∧ i.iOpenCount = 0) := by
      intro t hsame
      have hempty : LinkCounts.linksOf t dc.dInode = ∅ ↔ wordPred i.iLinkCount = 0 := by
        rw [linksOf_same hsame,linksOf_detach hdet leaf hn inv,
          ← Set.ncard_eq_zero ((linksOf_finite inv dc.dInode).subset Set.sdiff_subset)]
        omega
      unfold LastLink
      rw [hempty,hkind]
      simp [hreg]
    refine holds_bind_ok (t := (unlinked u q c dc).setInode dc.dInode
      { i with iLinkCount := wordPred i.iLinkCount }) rfl ?_
    split_ifs with hcond
    · refine holds_bind_ok rfl (onDisk_after _ fun disk => ?_)
      exact hfinish _ { i with iLinkCount := wordPred i.iLinkCount } ⟨rfl,rfl,rfl,rfl⟩ rfl rfl
        (fun _ => hstep) rfl rfl (.inl ⟨(hlast _ ⟨rfl,rfl,rfl,rfl⟩).mpr hcond,rfl⟩)
    · exact holds_pure (hfinish _ { i with iLinkCount := wordPred i.iLinkCount }
        ⟨rfl,rfl,rfl,rfl⟩ rfl rfl (fun _ => hstep) rfl rfl
        (.inr ⟨fun hl => hcond ((hlast _ ⟨rfl,rfl,rfl,rfl⟩).mp hl),rfl⟩))
  · rename_i hdir
    have hsame : ∀ disk : δ, Unlinked dev top u c dc { unlinked u q c dc with disk := disk } :=
      fun disk => hfinish _ i ⟨rfl,rfl,rfl,rfl⟩ rfl rfl (by simp [hdir])
        (by rw [← hi,update_eq_self]; rfl) rfl
        (.inr ⟨fun hl => by simp [hl.1] at hdir,rfl⟩)
    split
    · exact onDisk_after _ hsame
    · exact holds_pure (hsame u.disk)
  · exact stop_after

structure Unlinkable (s : Vfs δ) (path : Str) : Prop where
  plain : PlainPath path
  leaf : LeafAt (topOf s) s (components path)
  noDevice : NoDevice (topOf s) s path
  fits : ∀ ino i, s.inodes ino = some i → i.iLinkCount ≤ wordSize

def Removed (dev : Prop) (top : TreeTop) (s t : Vfs δ) : Prop :=
  Looked dev top s t ∨ ∃ u c d, Looked dev top s u ∧ u.dentries c = some d ∧
    (∃ q, childOf u q d.dName = some c) ∧ Unlinked dev top u c d t

theorem sysUnlinkat_removes (inv : Stands dev s) (h : LinkInv s)
    (hunlinkable : Unlinkable s path) (cwd : Str) (removeDir : Bool) :
    Holds (sysUnlinkat lw cwd path removeDir) s (fun _ t => Removed dev (topOf s) s t)
      (After (Removed dev (topOf s) s)) := by
  refine sysUnlinkat_rule lw (extends_kept s) trivial inv hunlinkable.plain hunlinkable.noDevice
    hunlinkable.leaf ⟨h,Extends.refl s⟩ cwd removeDir (fun _ inv h => .inl ⟨inv,h.1,h.2⟩) ?_
  intro u q c d invu hu hat hd hk hedge leaf
  have hfit : ∀ i, u.inodes d.dInode = some i → i.iLinkCount ≤ wordSize := by
    intro i hi
    rcases hu.2.added _ i hi with hold | ⟨-,⟨mode,rfl⟩,-⟩
    · exact hunlinkable.fits _ i hold
    · exact (by decide : 1 ≤ wordSize)
  have hlooked : Looked dev (topOf s) s u := ⟨invu,hu.1,hu.2⟩
  exact (unlink_unlinks lw trivial invu hu.1 hat hd hedge leaf hk hfit).mono
    (fun _ _ ht => .inr ⟨u,c,d,hlooked,hd,⟨q,hedge⟩,ht⟩)
    fun _ _ ht e he => .inr ⟨u,c,d,hlooked,hd,⟨q,hedge⟩,ht e he⟩

end Unlinking

end DuckOs.LinkCounts
