import DuckOs.VfsLookups

namespace DuckOs.VfsCalls
open ExecutionRules PathModel VfsModel VfsTrees VfsLookups Function

variable {δ : Type} {dev : Prop} {top : TreeTop} {s s' : Vfs δ} {q c fa : ℕ}
  {name oldPath newPath : Str} {dq dc : Dentry} {l : List Str} {Q : Unit → Vfs δ → Prop}

theorem makeNode_changes (lw : Lwext4 δ) (kind : DentryKind) (path : Str) (mode : InodeMode) :
    Holds (makeNode lw kind path mode) s (fun _ s' => DiskOnly s s') fun _ s' => DiskOnly s s' := by
  unfold makeNode
  split
  · exact onDisk_changes _
  · exact onDisk_changes _
  · exact holds_pure ⟨s.disk,rfl⟩
  · exact holds_pure ⟨s.disk,rfl⟩
  · exact holds_throw ⟨s.disk,rfl⟩

theorem adopted_attaching (inv : TreeInv dev top s) (hq : s.dentries q = some dq) (name : Str)
    (dc : Dentry) :
    Attaching s q name s.nextDentry dq { dc with dParent := some q }
      ((((addEntry s dc).insertChild q name s.nextDentry).withDentry s.nextDentry fun d =>
        { d with dParent := some q }).cacheInsert dc.dPath s.nextDentry) := by
  obtain ⟨hne,-⟩ := addEntry_parent inv hq dc
  have h := addEntry_attaching inv hq name dc
  refine ⟨?_,?_,fun id hid hidc => ?_,h.cache,h.manager,h.next⟩
  · rw [← h.parent]
    exact update_of_ne hne _ _
  · refine (update_self _ _ _).trans ?_
    rw [show ((addEntry s dc).insertChild q name s.nextDentry).dentries s.nextDentry = some dc
      from h.child]
    rfl
  · rw [← h.others id hid hidc]
    exact update_of_ne hidc _ _

/-- The tree with the entry that `create` makes. -/
def created (s : Vfs δ) (q : ℕ) (dq : Dentry) (name : Str) (inode : ℕ) : Vfs δ :=
  (((addEntry s ⟨dq.kind, formatPath name, joinName name dq.dPath, inode, none, ∅⟩).insertChild q
    name s.nextDentry).withDentry s.nextDentry fun d => { d with dParent := some q }).cacheInsert
      (joinName name dq.dPath) s.nextDentry

theorem create_creates (lw : Lwext4 δ) (hq : s.dentries q = some dq) (hname : ValidName name)
    (mode : InodeMode) :
    Holds (create lw q name mode) s
      (fun c s' => ∃ disk, dq.kind ≠ .device ∧ c = s.nextDentry ∧
        s' = created (withInode { s with disk := disk } mode) q dq name s.nextInode)
      fun _ s' => DiskOnly s s' := by
  have hdname : dentryName (joinName name dq.dPath) = name :=
    dentryName_append (components_joinName hname dq.dPath)
  refine holds_bind_ok (dentry_eq hq) ?_
  split_ifs with hk
  · exact holds_throw ⟨s.disk,rfl⟩
  · refine holds_bind_ok (cwdAndName_eq hname dq.dPath) ?_
    refine (makeNode_changes lw dq.kind _ mode).bind ?_
    rintro _ _ ⟨disk,rfl⟩
    rw [hdname]
    exact holds_ok rfl ⟨disk,hk,rfl,rfl⟩

theorem created_attaching (inv : TreeInv dev top s) (hq : s.dentries q = some dq)
    (hat : At top s l q) (hk : dq.kind ≠ .device) (hname : ValidName name)
    (hplain : top.named → Plain name) (hreplaced : ∀ e, childOf s q name = some e → Leaf s e)
    (inode : ℕ) :
    Attachable dev top s q name s.nextDentry dq
        ⟨dq.kind, formatPath name, joinName name dq.dPath, inode, some q, ∅⟩ ∧
      Attaching s q name s.nextDentry dq
        ⟨dq.kind, formatPath name, joinName name dq.dPath, inode, some q, ∅⟩
        (created s q dq name inode) :=
  ⟨attachable_entry inv hq hat hk hname hplain hreplaced dq.kind hk inode,
    adopted_attaching inv hq name
      ⟨dq.kind,formatPath name,joinName name dq.dPath,inode,none,∅⟩⟩

theorem unlinked_detaching (hedge : childOf s q dc.dName = some c) (hq : s.dentries q = some dq)
    (hc : s.dentries c = some dc) (hne : c ≠ q) :
    Detaching s q dc.dName c dq dc dc.dPath
      (((s.withDentry c fun d => { d with dParent := none }).cacheRemove dc.dPath).removeChild q
        dc.dName) := by
  refine ⟨hedge,hq,hc,?_,⟨none,?_⟩,fun id hid hidc => ?_,fun _ => rfl,fun p => ?_,rfl,rfl⟩
  · refine (update_self _ _ _).trans ?_
    change (update s.dentries c _ q).map _ = _
    rw [update_of_ne hne.symm,hq]
    rfl
  · refine (update_of_ne hne _ _).trans ?_
    refine (update_self _ _ _).trans ?_
    rw [hc]
    rfl
  · exact (update_of_ne hid _ _).trans (update_of_ne hidc _ _)
  · exact lookup_erased s.cache dc.dPath p

section Renaming

theorem overlapping_holds (inv : TreeInv dev top s) (self newParent overlap : ℕ) :
    Holds (overlapping self newParent overlap) s (fun _ _ => False) (Recovers dev top) := by
  unfold overlapping
  split
  · exact stop_after
  · refine dentry_bind fun o _ => ?_
    refine inodeMeta_bind fun i _ => ?_
    split
    · exact holds_bind_ok rfl stop_after
    · split
      · exact fail_after inv
      · exact stop_after

variable {a b : ℕ} {oldName newName : Str} {old new : Dentry}

theorem taken_detaching (hedge : childOf s a oldName = some c) (ha : s.dentries a = some old)
    (hc : s.dentries c = some dc) (hne : c ≠ a)
    (hpath : dc.kind ≠ .device → dc.dPath = joinName oldName old.dPath) :
    Detaching s a oldName c old dc (joinName oldName old.dPath)
      ((s.removeChild a oldName).cacheRemove (joinName oldName old.dPath)) := by
  refine ⟨hedge,ha,hc,?_,⟨dc.dParent,?_⟩,fun id hid _ => update_of_ne hid _ _,
    fun hk => (hpath hk).symm,fun p => ?_,rfl,rfl⟩
  · refine (update_self _ _ _).trans ?_
    rw [ha]
    rfl
  · exact (update_of_ne hne _ _).trans hc
  · exact lookup_erased s.cache (joinName oldName old.dPath) p

def moved (dc : Dentry) (name path : Str) (parent : ℕ) : Dentry :=
  { dc with dName := name, dPath := path, dParent := some parent }

theorem given_attaching (inv : TreeInv dev top s) (hb : s.dentries b = some new)
    (hc : s.dentries c = some dc) (hne : c ≠ b) (newName path : Str) :
    Attaching s b newName c new (moved dc newName path b)
      (((s.withDentry c fun d => moved d newName path b).insertChild b newName c).cacheInsert path
        c) := by
  have hlt : c < s.nextDentry := by
    by_contra hge
    rw [inv.fresh c (by omega)] at hc
    cases hc
  refine ⟨?_,?_,fun id hid hidc => ?_,fun p => ?_,rfl,le_rfl,hlt⟩
  · refine (update_self _ _ _).trans ?_
    change (update s.dentries c _ b).map _ = _
    rw [update_of_ne hne.symm,hb]
    rfl
  · refine (update_of_ne hne _ _).trans ?_
    refine (update_self _ _ _).trans ?_
    rw [hc]
    rfl
  · exact (update_of_ne hid _ _).trans (update_of_ne hidc _ _)
  · exact lookup_inserted s.cache path c p

theorem attachable_moved (inv : TreeInv dev top s) {key : Str}
    (h : Detaching s a oldName c old dc key s') (hleaf : Leaf s c) (hold : old.kind = .ext4)
    (hb : s.dentries b = some new) (hab : a ≠ b) (hcb : c ≠ b) (hat : At top s l b)
    (hk : new.kind ≠ .device) (hname : ValidName newName) (hfree : childOf s b newName = none)
    (hc' : s'.dentries c = some dc) :
    Attachable dev top s' b newName c new (moved dc newName (joinName newName new.dPath) b) := by
  have hb' : s'.dentries b = some new := by rw [h.others b hab.symm hcb.symm,hb]
  obtain ⟨old',dc',hold',hdc',-,-,-,-,hsimple,-⟩ := inv.edge _ _ _ h.edge
  cases h.parentBefore.symm.trans hold'
  cases h.childBefore.symm.trans hdc'
  have hkc : dc.kind ≠ .device := fun hd => by
    have hs := hsimple hd
    rw [hold] at hs
    cases hs
  have inv' := h.treeInv hleaf (fun hd => (hkc hd).elim) inv
  refine ⟨hb',hk,hname,fun e he => ?_,hcb,fun hr => inv.root_no_edge hr h.edge,
    fun _ _ _ _ => ⟨dc,hc',rfl⟩,fun hd => (hkc hd).elim,h.no_edge hleaf inv
      (fun hd => (hkc hd).elim),
    h.gone inv hkc,
    fun n => ?_,fun _ => rfl,rfl,fun n => ?_,fun hd => (hkc hd).elim,joined_path inv' hb' hname,
    fun _ => rfl,fun _ => ⟨l,h.at_kept hleaf hat hcb.symm⟩⟩
  · rw [h.childOf_eq hleaf,if_neg fun hba => hab hba.1.symm,hfree] at he
    cases he
  · rw [h.childOf_eq hleaf]
    split
    · rfl
    · exact hleaf n
  · have hnone := hleaf n
    rwa [VfsTrees.childOf_eq h.childBefore] at hnone

end Renaming

section Syscalls

variable (lw : Lwext4 δ) {path : Str} {s₁ s₂ : Vfs δ}

theorem no_child_of_found {e : ℕ} {a : Str} (hf : Found dev top path s none s₁)
    (hfa : Found dev top (parentPath path) s₁ (some fa) s₂) (hp : components path = l ++ [a]) :
    childOf s₂ fa a ≠ some e := by
  intro he
  obtain ⟨d,hd,himp⟩ := hfa.entry fa rfl
  obtain ⟨d',_,hd',_,hk,_⟩ := hfa.inv.edge _ _ _ he
  cases hd.symm.trans hd'
  have hat := himp hk
  have habsent := (hf.absent rfl).2
  rw [hp] at habsent
  rw [components_parentPath hp] at hat
  refine hfa.grows.absent hf.inv hfa.inv habsent ?_ e (hat.child he)
  intro halong
  have hlen := halong.length_le
  rw [components_parentPath hp,List.length_append,List.length_singleton] at hlen
  omega

section

variable (hplain : top.named → PlainPath path) (hf : Found dev top path s none s₁)
  (hfa : Found dev top (parentPath path) s₁ (some fa) s₂)
include hplain hf hfa

theorem found_parent : ∃ l a d, components path = l ++ [a] ∧ ValidName a ∧ (top.named → Plain a) ∧
      s₂.dentries fa = some d ∧
      (d.kind ≠ .device → At top s₂ l fa) ∧ childOf s₂ fa a = none := by
  obtain ⟨l,a,hp⟩ := (List.eq_nil_or_concat' (components path)).resolve_left (hf.absent rfl).1
  have hname : ValidName a := validName_of_mem_components (p := path) (by simp [hp])
  obtain ⟨d,hd,himp⟩ := hfa.entry fa rfl
  rw [components_parentPath hp] at himp
  exact ⟨l,a,d,hp,hname,fun hn => ((hplain hn).last hp).2,hd,himp,
    Option.eq_none_iff_forall_ne_some.mpr fun e => no_child_of_found hf hfa hp⟩

end

section Rules

variable {J I : Vfs δ → Prop}

theorem sysOpenat_rule {Q : ℕ × Ext4FileModel.OpenFlags → Vfs δ → Prop} (hJ : Kept dev top J)
    (inv : TreeInv dev top s) (hplain : top.named → PlainPath path) (hs : J s)
    (flags : Ext4FileModel.OpenFlags) (hI : ∀ t, TreeInv dev top t → J t → I t)
    (hcreate : ∀ t fa d l a, TreeInv dev top t → J t → t.dentries fa = some d →
      (d.kind ≠ .device → At top t l fa) → ValidName a → (top.named → Plain a) →
        childOf t fa a = none →
      Holds (create lw fa a .Regular) t (fun _ t' => TreeInv dev top t' ∧ J t') (After I))
    (hopen : ∀ t c flags, TreeInv dev top t → J t →
      Holds (openDentry c flags) t (fun _ => Q (c, flags)) (After I)) :
    Holds (sysOpenat lw path flags) s Q (After I) := by
  have hfind : ∀ {t : Vfs δ} {p : Str}, TreeInv dev top t → J t → (top.named → PlainPath p) →
      Holds (pathToDentry lw p) t (fun r t' => Found dev top p t r t' ∧ J t') (After I) :=
    fun inv ht hp => holds_after (pathToDentry_keeps lw hJ inv hp ht)
  refine (hfind inv hs hplain).bind ?_
  rintro r s₁ ⟨hf,hs₁⟩
  cases r with
  | some found =>
    dsimp only
    refine dentry_bind fun d _ => ?_
    refine inodeMeta_bind fun i _ => ?_
    generalize (if i.iMode = .Regular ∧ flags.isWritable then flags
      else flags &&& ~~~Ext4FileModel.OpenFlags.O_TRUNC) = flags
    split
    · exact fail_after (hI _ hf.inv hs₁)
    · split
      · exact fail_after (hI _ hf.inv hs₁)
      · exact (hopen _ found flags hf.inv hs₁).bind fun _ _ h => holds_pure h
  | none =>
    dsimp only
    split
    · refine (hfind hf.inv hs₁ fun hn => (hplain hn).parent).bind ?_
      rintro r s₂ ⟨hfa,hs₂⟩
      refine unwrap_bind ?_
      rintro fa rfl
      obtain ⟨l,a,d,hp,hname,hplaina,hd,hat,hfree⟩ := found_parent hplain hf hfa
      rw [dentryName_append hp]
      refine (hcreate _ fa d l a hfa.inv hs₂ hd hat hname hplaina hfree).bind ?_
      rintro child s₃ ⟨inv₃,hs₃⟩
      exact (hopen _ child flags inv₃ hs₃).bind fun _ _ h => holds_pure h
    · exact fail_after (hI _ hf.inv hs₁)

theorem sysUnlinkat_rule (hJ : Kept dev top J) (hn : top.named) (inv : TreeInv dev top s)
    (hplain : PlainPath path) (hdev : NoDevice top s path) (hleaf : LeafAt top s (components path))
    (hs : J s) (cwd : Str) (removeDir : Bool) (hI : ∀ t, TreeInv dev top t → J t → I t)
    (hunlink : ∀ t q c d, TreeInv dev top t → J t → At top t (components path) c →
      t.dentries c = some d → d.kind ≠ .device → childOf t q d.dName = some c → Leaf t c →
      Holds (unlink lw q c) t Q (After I)) :
    Holds (sysUnlinkat lw cwd path removeDir) s Q (After I) := by
  unfold sysUnlinkat
  split
  · exact fail_after (hI _ inv hs)
  refine (holds_after (pathToDentry_keeps lw hJ inv (fun _ => hplain) hs)).bind ?_
  rintro r s₁ ⟨hf,hs₁⟩
  have hfail := hI _ hf.inv hs₁
  refine okOr_bind hfail ?_
  rintro found rfl
  refine dentry_bind fun d hd => ?_
  refine inodeMeta_bind fun i _ => ?_
  have hat := hf.place found rfl hdev
  have hleaf₁ := hleaf.grows hf.grows inv hf.inv (not_along fun _ => rfl) found hat
  have hcall : ∀ q, d.dParent = some q → Holds (unlink lw q found) s₁ Q (After I) := fun q hq =>
    hunlink s₁ q found d hf.inv hs₁ hat hd (hf.ordinary inv hdev hd)
      (hf.inv.edge_of_parent hn hat hd hq) hleaf₁
  cases hparent : d.dParent with
  | none =>
    split_ifs
    · exact fail_after hfail
    · exact fail_after hfail
    · exact fail_after hfail
    · exact fail_after hfail
  | some q =>
    split_ifs
    · exact hcall q hparent
    · exact fail_after hfail
    · exact fail_after hfail
    · exact hcall q hparent

theorem sysLinkat_rule (hJ : Kept dev top J) (inv : TreeInv dev top s) {a : Str}
    (hplain : PlainPath oldPath) (hplain' : PlainPath newPath) (hp : components newPath = l ++ [a])
    (hdev : NoDevice top s (parentPath newPath)) (hs : J s)
    (hI : ∀ t, TreeInv dev top t → J t → I t)
    (hlink : ∀ t₁ t old fa d, Found dev top oldPath s (some old) t₁ → TreeInv dev top t →
      Grows top (Along l) t₁ t → J t → At top t l fa → t.dentries fa = some d → d.kind ≠ .device →
      Holds (link lw old fa a) t Q (After I)) :
    Holds (sysLinkat lw oldPath newPath) s Q (After I) := by
  refine holds_get ?_
  split
  · exact fail_after (hI _ inv hs)
  refine (holds_after (pathToDentry_keeps lw hJ inv (fun _ => hplain) hs)).bind ?_
  rintro r s₁ ⟨hf,hs₁⟩
  refine okOr_bind (hI _ hf.inv hs₁) ?_
  rintro old rfl
  refine dentry_bind fun d _ => ?_
  refine inodeMeta_bind fun i _ => ?_
  split
  · exact fail_after (hI _ hf.inv hs₁)
  refine (holds_after (pathToDentry_keeps lw hJ hf.inv (fun _ => hplain'.parent) hs₁)).bind ?_
  rintro r s₂ ⟨hfa,hs₂⟩
  refine okOr_bind (hI _ hfa.inv hs₂) ?_
  rintro fa rfl
  refine dentry_bind fun p hdp => ?_
  refine inodeMeta_bind fun j _ => ?_
  split
  · exact fail_after (hI _ hfa.inv hs₂)
  have hdev₁ := hdev.grows hf.grows inv
  have hk := hfa.ordinary hf.inv hdev₁ hdp
  have hat := hfa.place fa rfl hdev₁
  have hgrows := hfa.grows
  rw [components_parentPath hp] at hat hgrows
  rw [dentryName_append hp]
  exact hlink s₁ s₂ old fa p hf hfa.inv hgrows hs₂ hat hdp hk

end Rules

end Syscalls

end DuckOs.VfsCalls
