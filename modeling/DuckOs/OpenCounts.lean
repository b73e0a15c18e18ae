import DuckOs.LinkCounts
import DuckOs.DescriptorTables

namespace DuckOs.OpenCounts
open ExecutionRules PathModel VfsModel VfsTrees VfsLookups VfsMounts FdTables DescriptorTables
  LinkCounts Function
open AddressModel (wordSize)
open Ext4FileModel (OpenFlags)

variable {δ α : Type} {dev : Prop} {w w' : World δ} {ino c id ti fd : ℕ} {i : InodeMeta}
  {t t' : FdTable} {s : Vfs δ} {d : Dentry} {x : EStateM VirtMemoryModel.Errno δ α} {disk : δ}

def refsOf (t : FdTable) : Set ℕ := {id | ∃ fd flags, t.lookup fd = some ⟨.opened id, flags⟩}

def refs (w : World δ) : Set ℕ := {id | ∃ t ∈ w.tables, id ∈ refsOf t}

def heldOf (w : World δ) (ino : ℕ) : Set ℕ :=
  {id | id ∈ refs w ∧ (w.files id).map FileMeta.fInode = some ino}

/-- The inode has no link left, and no file for it is open. -/
def Dead (w : World δ) (ino : ℕ) : Prop :=
  w.vfs.inodes ino ≠ none ∧ linksOf w.vfs ino = ∅ ∧ heldOf w ino = ∅

/-- After a step the counts are right, none has gone below zero, and the library removes the files
of ext4 that have died in it, each once and under a path that no other file has. -/
structure LifeCounted (w w' : World δ) : Prop where
  counted : ∀ ino i, w'.vfs.inodes ino = some i → i.iOpenCount = (heldOf w' ino).ncard
  above : ∀ ino i i', w.vfs.inodes ino = some i → w'.vfs.inodes ino = some i' →
    i'.iOpenCount ≤ i.iOpenCount + 1
  removed : ∃ calls : List (ℕ × Str), w'.vfs.rmfiles = w.vfs.rmfiles ++ calls ∧
    (calls.map Prod.fst).Nodup ∧
    (∀ ino, ino ∈ calls.map Prod.fst ↔ Ext4File w'.vfs ino ∧ ¬ Dead w ino ∧ Dead w' ino) ∧
    ∀ call ∈ calls, ∀ c e, At (topOf w'.vfs) w'.vfs (components call.2) c →
      entryOf w'.vfs c = some e → e.2 = call.1

structure Sound (dev : Prop) (w : World δ) : Prop where
  tree : Stands dev w.vfs
  links : LinkInv w.vfs
  tables : ∀ t ∈ w.tables, TableInv t
  files : ∀ id f, w.files id = some f → id < w.nextFile ∧
    ∃ kind, entryOf w.vfs f.fDentry = some (kind, f.fInode)
  known : ∀ id ∈ refs w, ∃ f, w.files id = some f
  counted : ∀ ino i, w.vfs.inodes ino = some i → i.iOpenCount = (heldOf w ino).ncard

theorem Sound.held_finite (h : Sound dev w) (ino : ℕ) : (heldOf w ino).Finite := by
  refine (Finset.finite_toSet (Finset.range w.nextFile)).subset ?_
  rintro id ⟨hid,-⟩
  obtain ⟨f,hf⟩ := h.known id hid
  simpa using (h.files id f hf).1

theorem Sound.inode_of_held (h : Sound dev w) (hid : id ∈ heldOf w ino) :
    ∃ i, w.vfs.inodes ino = some i := by
  obtain ⟨-,hino⟩ := hid
  obtain ⟨f,hf,rfl⟩ := Option.map_eq_some_iff.mp hino
  obtain ⟨-,kind,he⟩ := h.files id f hf
  exact h.links.inodes _ _ he

theorem Sound.held_empty (h : Sound dev w) (hnone : w.vfs.inodes ino = none) :
    heldOf w ino = ∅ := by
  ext id
  simp only [Set.mem_empty_iff_false,iff_false]
  intro hid
  obtain ⟨i,hi⟩ := h.inode_of_held hid
  rw [hnone] at hi
  cases hi

theorem Sound.counted_of_spares (h : Sound dev w) (hs : Spares w.vfs s)
    (hi : s.inodes ino = some i) :
    i.iOpenCount = (heldOf w ino).ncard := by
  cases hold : w.vfs.inodes ino with
  | none =>
    rw [h.held_empty hold,Set.ncard_empty]
    exact ((hs.added ino i hi).resolve_left (not_not.mpr hold)).1
  | some j =>
    obtain ⟨links,hj⟩ := hs.inodes ino j hold
    cases hi.symm.trans hj
    exact h.counted ino j hold

theorem heldOf_eq (hrefs : refs w' = refs w) (hfiles : w'.files = w.files) (ino : ℕ) :
    heldOf w' ino = heldOf w ino := by
  unfold heldOf
  rw [hrefs,hfiles]

theorem not_dead_of_spares (hs : Spares w.vfs s) (hw : ¬ Dead w ino) (hi : s.inodes ino ≠ none)
    (hheld : heldOf w ino = ∅) : linksOf s ino ≠ ∅ := by
  intro hempty
  obtain ⟨i,hi⟩ := Option.ne_none_iff_exists'.mp hi
  cases hold : w.vfs.inodes ino with
  | none =>
    have hlink := ((hs.added ino i hi).resolve_left (not_not.mpr hold)).2
    exact hlink.ne_empty hempty
  | some j =>
    have hlinks := Set.subset_empty_iff.mp (hempty ▸ hs.links ino j hold)
    exact hw ⟨by simp [hold],hlinks,hheld⟩

section Life

variable (h : Sound dev w)
  (hcounted : ∀ ino i, w'.vfs.inodes ino = some i → i.iOpenCount = (heldOf w' ino).ncard)
  (hle : ∀ ino, (heldOf w' ino).ncard ≤ (heldOf w ino).ncard + 1)

include h hcounted hle

theorem lifeCounted_none (hrm : w'.vfs.rmfiles = w.vfs.rmfiles)
    (hno : ∀ n, Ext4File w'.vfs n → ¬ Dead w n → ¬ Dead w' n) : LifeCounted w w' := by
  refine ⟨hcounted,fun ino i i' hi hi' => ?_,[],by rw [hrm,List.append_nil],List.nodup_nil,
    fun n => ?_,fun call hcall => by cases hcall⟩
  · rw [h.counted ino i hi,hcounted ino i' hi']
    exact hle ino
  · simpa using hno n

theorem lifeCounted_one {path : Str} (hrm : w'.vfs.rmfiles = w.vfs.rmfiles ++ [(ino, path)])
    (hdies : Ext4File w'.vfs ino ∧ ¬ Dead w ino ∧ Dead w' ino)
    (hothers : ∀ n, n ≠ ino → ¬ Dead w n → ¬ Dead w' n)
    (hpath : ∀ c e, At (topOf w'.vfs) w'.vfs (components path) c → entryOf w'.vfs c = some e →
      e.2 = ino) : LifeCounted w w' := by
  refine ⟨hcounted,fun ino i i' hi hi' => ?_,_,hrm,by simp,fun n => ?_,fun call hcall => ?_⟩
  · rw [h.counted ino i hi,hcounted ino i' hi']
    exact hle ino
  · simp only [List.map_cons,List.map_nil,List.mem_singleton]
    constructor
    · rintro rfl
      exact hdies
    · rintro ⟨-,hw,hdead⟩
      by_contra hne
      exact hothers n hne hw hdead
  · rw [List.mem_singleton.mp hcall]
    exact hpath

end Life

section Steps

variable {u : Vfs δ}

section

variable (h : Sound dev w) (hcalm : Calm dev (topOf w.vfs) w.vfs w'.vfs)
  (hfiles : w'.files = w.files)
include h hcalm hfiles

theorem calm_counted_iff (hsub : refs w' ⊆ refs w) : LifeCounted w w' ↔ refs w' = refs w := by
  constructor
  · intro hlife
    refine hsub.antisymm fun id hid => ?_
    obtain ⟨f,hf⟩ := h.known id hid
    have hmem : id ∈ heldOf w f.fInode := ⟨hid,by rw [hf,Option.map_some]⟩
    obtain ⟨i,hi⟩ := h.inode_of_held hmem
    obtain ⟨links,hi'⟩ := hcalm.spares.inodes _ i hi
    have hcount := hlife.counted _ _ hi'
    have hbefore := h.counted _ i hi
    have hheld : heldOf w' f.fInode ⊆ heldOf w f.fInode := fun x hx =>
      ⟨hsub hx.1,by rw [← hfiles]; exact hx.2⟩
    have heq := Set.eq_of_subset_of_ncard_le hheld (by
      rw [← hcount,← hbefore]) (h.held_finite _)
    rw [← heq] at hmem
    exact hmem.1
  · intro hrefs
    have hheld := heldOf_eq hrefs hfiles
    refine lifeCounted_none h (fun ino i hi => ?_) (fun ino => by rw [hheld]; omega)
      hcalm.spares.rmfiles fun ino _ hw hdead => ?_
    · rw [hheld]
      exact h.counted_of_spares hcalm.spares hi
    · exact not_dead_of_spares hcalm.spares hw hdead.1 (hheld ino ▸ hdead.2.2) hdead.2.1

theorem calm_sound (hnext : w'.nextFile = w.nextFile)
    (htables : ∀ t ∈ w'.tables, TableInv t) (hrefs : refs w' = refs w) : Sound dev w' := by
  refine ⟨stands_of_treeInv hcalm.tree,hcalm.links,htables,fun id f hf => ?_,fun id hid => ?_,
    fun ino i hi => ?_⟩
  · rw [hfiles] at hf
    obtain ⟨hlt,kind,he⟩ := h.files id f hf
    exact ⟨hnext ▸ hlt,kind,hcalm.spares.entries _ _ he⟩
  · rw [hfiles]
    exact h.known id (hrefs ▸ hid)
  · rw [heldOf_eq hrefs hfiles]
    exact h.counted_of_spares hcalm.spares hi

end

theorem leaked_not_counted (h : Sound dev w)
    (hopened : Opened dev (topOf w.vfs) w.vfs c w'.vfs)
    (hheld : ∀ ino, heldOf w' ino ⊆ heldOf w ino) : ¬ LifeCounted w w' := by
  rintro ⟨hcounted,-,-⟩
  obtain ⟨u,d,i,hlook,-,hi,heq⟩ := hopened
  have hafter := hcounted d.dInode { i with iOpenCount := i.iOpenCount + 1 }
    (by rw [heq]; exact update_self _ _ _)
  have hbefore := h.counted_of_spares hlook.ext.spares hi
  have hle := Set.ncard_le_ncard (hheld d.dInode) (h.held_finite _)
  simp only at hafter
  omega

theorem Sound.next_notMem (h : Sound dev w) : w.nextFile ∉ refs w := by
  intro hid
  obtain ⟨f,hf⟩ := h.known _ hid
  exact (h.files _ f hf).1.ne rfl

theorem heldOf_opened (h : Sound dev w) {file : FileMeta}
    (hfiles : w'.files = update w.files w.nextFile (some file))
    (hrefs : refs w' = insert w.nextFile (refs w)) (ino : ℕ) :
    heldOf w' ino =
      if ino = file.fInode then insert w.nextFile (heldOf w ino) else heldOf w ino := by
  ext id
  by_cases hid : id = w.nextFile
  · subst hid
    by_cases hino : ino = file.fInode <;>
      simp [heldOf,hrefs,hfiles,h.next_notMem,hino,eq_comm]
  · by_cases hino : ino = file.fInode <;> simp [heldOf,hrefs,hfiles,hid,hino]

theorem opened_counted (h : Sound dev w) (hopened : Opened dev (topOf w.vfs) w.vfs c w'.vfs)
    (hd : w'.vfs.dentries c = some d)
    (hfiles : w'.files = update w.files w.nextFile (some ⟨c, d.dInode, 0⟩))
    (hnext : w'.nextFile = w.nextFile + 1) (htables : ∀ t ∈ w'.tables, TableInv t)
    (hrefs : refs w' = insert w.nextFile (refs w)) : LifeCounted w w' ∧ Sound dev w' := by
  obtain ⟨u,d',i,hlook,hdu,hi,heq⟩ := hopened
  have hsame : SameTree u w'.vfs := by
    rw [heq]
    exact ⟨rfl,rfl,rfl,rfl⟩
  obtain rfl : d' = d := by
    rw [hsame.1,hdu] at hd
    exact Option.some.inj hd
  have hheld := heldOf_opened h hfiles hrefs
  have hspares := hlook.ext.spares
  have hinode : ∀ n j, w'.vfs.inodes n = some j →
      n = d'.dInode ∧ j = { i with iOpenCount := i.iOpenCount + 1 } ∨
      n ≠ d'.dInode ∧ u.inodes n = some j := by
    rw [heq]
    exact fun n j hj => NamedTrees.update_cases hj
  have hcard : ∀ n, (heldOf w' n).ncard = (heldOf w n).ncard + if n = d'.dInode then 1 else 0 := by
    intro n
    rw [hheld]
    split
    · exact Set.ncard_insert_of_notMem (fun hmem => h.next_notMem hmem.1) (h.held_finite _)
    · rfl
  have hcounted : ∀ n j, w'.vfs.inodes n = some j → j.iOpenCount = (heldOf w' n).ncard := by
    intro n j hj
    rw [hcard]
    rcases hinode n j hj with ⟨rfl,rfl⟩ | ⟨hne,hj⟩
    · rw [if_pos rfl,← h.counted_of_spares hspares hi]
    · rw [if_neg hne]
      exact h.counted_of_spares hspares hj
  refine ⟨lifeCounted_none h hcounted (fun n => ?_) ?_ fun n _ hw hdead => ?_,?_⟩
  · rw [hcard]
    split <;> omega
  · rw [heq]
    exact hspares.rmfiles
  · obtain ⟨hexists,hlinks,hempty⟩ := hdead
    rw [linksOf_same hsame] at hlinks
    refine not_dead_of_spares hspares hw ?_ ?_ hlinks
    · obtain ⟨j,hj⟩ := Option.ne_none_iff_exists'.mp hexists
      rcases hinode n j hj with ⟨rfl,-⟩ | ⟨-,hj⟩
      · simp [hi]
      · simp [hj]
    · rw [hheld] at hempty
      split at hempty
      · exact absurd hempty (Set.insert_nonempty _ _).ne_empty
      · exact hempty
  · refine ⟨stands_of_treeInv (hsame.treeInv hlook.tree),?_,htables,fun id f hf => ?_,
      fun id hid => ?_,hcounted⟩
    · rw [heq]
      exact hlook.links.setOpen hi _
    · rw [hnext,entryOf_same hsame]
      rcases NamedTrees.update_cases (hfiles ▸ hf) with ⟨rfl,rfl⟩ | ⟨-,hf⟩
      · exact ⟨by omega,d'.kind,entryOf_eq hdu⟩
      · obtain ⟨hlt,kind,he⟩ := h.files id f hf
        exact ⟨by omega,kind,hspares.entries _ _ he⟩
    · rw [hfiles]
      by_cases heqid : id = w.nextFile
      · exact ⟨_,by rw [heqid,update_self]⟩
      · rw [hrefs,Set.mem_insert_iff] at hid
        obtain ⟨f,hf⟩ := h.known id (hid.resolve_left heqid)
        exact ⟨f,by rw [update_of_ne heqid,hf]⟩

theorem topOf_eq (inv : TreeInv dev (topOf s) u) : topOf u = topOf s := by
  unfold topOf rootOf
  rw [inv.managed]
  rfl

theorem calm_step (h : Sound dev w) (hcalm : Calm dev (topOf w.vfs) w.vfs s) :
    LifeCounted w { w with vfs := s } ∧ Sound dev { w with vfs := s } := by
  have hiff : LifeCounted w { w with vfs := s } ↔ refs { w with vfs := s } = refs w :=
    calm_counted_iff h hcalm rfl subset_rfl
  exact ⟨hiff.mpr rfl,calm_sound h hcalm rfl rfl h.tables rfl⟩

theorem removed_counted (h : Sound dev w) (hrem : Removed dev (topOf w.vfs) w.vfs s) :
    LifeCounted w { w with vfs := s } ∧ Sound dev { w with vfs := s } := by
  rcases hrem with hlook | ⟨u,c,d,hlook,hd,⟨q,hedge⟩,ht⟩
  · exact calm_step h hlook.calm
  have hspares := hlook.ext.spares
  obtain ⟨i,hi⟩ : ∃ i, u.inodes d.dInode = some i := hlook.links.inodes c _ (entryOf_eq hd)
  have hinode : ∀ n j, s.inodes n = some j → ∃ k, u.inodes n = some k ∧ k.iMode = j.iMode ∧
      k.iOpenCount = j.iOpenCount := by
    intro n j hj
    have hmap := ht.inodes n
    rw [hj,Option.map_some] at hmap
    obtain ⟨k,hk,heq⟩ := Option.map_eq_some_iff.mp hmap.symm
    exact ⟨k,hk,(Prod.mk.inj heq).1,(Prod.mk.inj heq).2⟩
  have hcounted : ∀ n j, s.inodes n = some j → j.iOpenCount = (heldOf w n).ncard := by
    intro n j hj
    obtain ⟨k,hk,-,hopen⟩ := hinode n j hj
    rw [← hopen]
    exact h.counted_of_spares hspares hk
  have hothers : ∀ n, n ≠ d.dInode → ¬ Dead w n → ¬ Dead { w with vfs := s } n := by
    rintro n hne hw ⟨hexists,hlinks,hempty⟩
    have hnot : c ∉ linksOf u n := fun hmem => hne ((mem_linksOf hedge hd n).mp hmem).symm
    obtain ⟨j,hj⟩ := Option.ne_none_iff_exists'.mp hexists
    obtain ⟨k,hk,-⟩ := hinode n j hj
    refine not_dead_of_spares hspares hw (by simp [hk]) hempty ?_
    rw [← hlinks]
    exact ((ht.linksOf n).trans (Set.sdiff_singleton_eq_self hnot)).symm
  have hdead : ¬ Dead w d.dInode := by
    rintro ⟨hexists,hlinks,-⟩
    obtain ⟨j,hj⟩ := Option.ne_none_iff_exists'.mp hexists
    have hmem := (mem_linksOf hedge hd d.dInode).mpr rfl
    rw [hlook.ext.links _ j hj,hlinks] at hmem
    exact hmem
  have hlast : LastLink s d i ↔ Ext4File s d.dInode ∧ Dead { w with vfs := s } d.dInode := by
    have hopen := h.counted_of_spares hspares hi
    constructor
    · rintro ⟨hmode,hkind,hlinks,hzero⟩
      obtain ⟨j,hj⟩ := ht.links.inodes c _ (by rw [ht.entries]; exact entryOf_eq hd)
      obtain ⟨k,hk,hkm,-⟩ := hinode _ j hj
      cases hi.symm.trans hk
      refine ⟨⟨⟨c,by rw [ht.entries,entryOf_eq hd,hkind]⟩,j,hj,hkm.symm.trans hmode⟩,
        by simp [hj],hlinks,?_⟩
      rwa [hopen,Set.ncard_eq_zero (h.held_finite _)] at hzero
    · rintro ⟨⟨⟨x,hx⟩,j,hj,hjm⟩,-,hlinks,hempty⟩
      obtain ⟨k,hk,hkm,-⟩ := hinode _ j hj
      cases hi.symm.trans hk
      rw [ht.entries] at hx
      refine ⟨hkm.trans hjm,hlook.links.kinds c x _ _ _ (entryOf_eq hd) hx,hlinks,?_⟩
      rw [hopen,show heldOf w d.dInode = ∅ from hempty,Set.ncard_empty]
  have hlife : LifeCounted w { w with vfs := s } := by
    rcases ht.calls i hi with ⟨hl,hrm⟩ | ⟨hl,hrm⟩
    · refine lifeCounted_one h hcounted (fun n => Nat.le_succ _) (hspares.rmfiles ▸ hrm)
        ⟨(hlast.mp hl).1,hdead,(hlast.mp hl).2⟩ hothers fun x e hx => ?_
      rw [topOf_eq ht.tree] at hx
      exact (ht.gone x hx).elim
    · refine lifeCounted_none h hcounted (fun n => Nat.le_succ _) (hrm.trans hspares.rmfiles)
        fun n hfile hw hdead' => ?_
      by_cases hn : n = d.dInode
      · subst hn
        exact hl (hlast.mpr ⟨hfile,hdead'⟩)
      · exact hothers n hn hw hdead'
  refine ⟨hlife,stands_of_treeInv ht.tree,ht.links,h.tables,fun id f hf => ?_,h.known,hcounted⟩
  obtain ⟨hlt,kind,he⟩ := h.files id f hf
  refine ⟨hlt,kind,?_⟩
  rw [ht.entries]
  exact hspares.entries _ _ he

end Steps

section Tables

variable {info : FdInfo} {fds : ℕ → Prop}

def HeldBeside (w : World δ) (ti : ℕ) (fds : ℕ → Prop) (id : ℕ) : Prop :=
  ∃ (tj : ℕ) (t : FdTable) (fd : ℕ) (flags : OpenFlags), w.tables[tj]? = some t ∧
    t.lookup fd = some ⟨.opened id, flags⟩ ∧ ¬ (tj = ti ∧ fds fd)

theorem mem_refs : id ∈ refs w ↔ ∃ (ti : ℕ) (t : FdTable), w.tables[ti]? = some t ∧
    id ∈ refsOf t := by
  constructor
  · rintro ⟨t,ht,hid⟩
    obtain ⟨ti,hti⟩ := List.mem_iff_getElem?.mp ht
    exact ⟨ti,t,hti,hid⟩
  · rintro ⟨ti,t,hti,hid⟩
    exact ⟨t,List.mem_of_getElem? hti,hid⟩

theorem tables_withTable (ht : w.tables[ti]? = some t) (t' : FdTable) (tj : ℕ) :
    (w.withTable ti t').tables[tj]? = if tj = ti then some t' else w.tables[tj]? := by
  obtain ⟨hlt,-⟩ := List.getElem?_eq_some_iff.mp ht
  change (w.tables.set ti t')[tj]? = _
  by_cases h : ti = tj
  · simp [h,h ▸ hlt]
  · simp [h,Ne.symm h]

theorem withTable_same (ht : w.tables[ti]? = some t) : w.withTable ti t = w := by
  unfold World.withTable
  rw [set_same ht]

theorem tableInv_withTable (h : ∀ t ∈ w.tables, TableInv t) (inv : TableInv t') :
    ∀ t ∈ (w.withTable ti t').tables, TableInv t := by
  intro t ht
  rcases List.mem_or_eq_of_mem_set ht with hold | rfl
  · exact h t hold
  · exact inv

theorem mem_refs_withTable (ht : w.tables[ti]? = some t) (t' : FdTable) :
    id ∈ refs (w.withTable ti t') ↔ id ∈ refsOf t' ∨
      ∃ tj t₁, tj ≠ ti ∧ w.tables[tj]? = some t₁ ∧ id ∈ refsOf t₁ := by
  rw [mem_refs]
  constructor
  · rintro ⟨tj,t₁,htj,hid⟩
    rw [tables_withTable ht] at htj
    split_ifs at htj with h
    · cases htj
      exact .inl hid
    · exact .inr ⟨tj,t₁,h,htj,hid⟩
  · rintro (hid | ⟨tj,t₁,h,htj,hid⟩)
    · exact ⟨ti,t',by rw [tables_withTable ht,if_pos rfl],hid⟩
    · exact ⟨tj,t₁,by rw [tables_withTable ht,if_neg h,htj],hid⟩

theorem refs_dropped [DecidablePred fds] (ht : w.tables[ti]? = some t)
    (hlook : ∀ n, t'.lookup n = if fds n then none else t.lookup n) :
    id ∈ refs (w.withTable ti t') ↔ HeldBeside w ti fds id := by
  rw [mem_refs_withTable ht]
  constructor
  · rintro (⟨n,flags,hn⟩ | ⟨tj,t₁,hne,htj,n,flags,hn⟩)
    · rw [hlook] at hn
      split_ifs at hn with h
      exact ⟨ti,t,n,flags,ht,hn,fun hc => h hc.2⟩
    · exact ⟨tj,t₁,n,flags,htj,hn,fun hc => hne hc.1⟩
  · rintro ⟨tj,t₁,n,flags,htj,hn,hnot⟩
    by_cases heq : tj = ti
    · subst heq
      cases ht.symm.trans htj
      exact .inl ⟨n,flags,by rw [hlook,if_neg fun h => hnot ⟨rfl,h⟩,hn]⟩
    · exact .inr ⟨tj,t₁,heq,htj,n,flags,hn⟩

theorem heldBeside_mem (h : HeldBeside w ti fds id) : id ∈ refs w := by
  obtain ⟨tj,t,fd,flags,ht,hfd,-⟩ := h
  exact mem_refs.mpr ⟨tj,t,ht,fd,flags,hfd⟩

section

variable (ht : w.tables[ti]? = some t)
include ht

theorem heldBeside_of_mem (hid : id ∈ refs w)
    (h : ∀ n flags, fds n → t.lookup n ≠ some ⟨.opened id, flags⟩) : HeldBeside w ti fds id := by
  obtain ⟨tj,t₁,htj,fd,flags,hfd⟩ := mem_refs.mp hid
  refine ⟨tj,t₁,fd,flags,htj,hfd,?_⟩
  rintro ⟨rfl,hfds⟩
  cases ht.symm.trans htj
  exact h fd flags hfds hfd

theorem refs_eq_iff (hrefs : ∀ id, id ∈ refs w' ↔ HeldBeside w ti fds id) : refs w' ⊆ refs w ∧
      (refs w' = refs w ↔ ∀ n id flags, fds n → t.lookup n = some ⟨.opened id, flags⟩ →
        HeldBeside w ti fds id) := by
  have hsub : refs w' ⊆ refs w := fun id hid => heldBeside_mem ((hrefs id).mp hid)
  refine ⟨hsub,fun heq n id flags _ hn => ?_,fun hall => hsub.antisymm fun id hid => ?_⟩
  · rw [← hrefs,heq]
    exact mem_refs.mpr ⟨ti,t,ht,n,flags,hn⟩
  · rw [hrefs]
    by_contra hnot
    exact hnot (heldBeside_of_mem ht hid fun n flags hfds hn => hnot (hall n id flags hfds hn))

theorem refs_taken (hfd : t.lookup fd = none) (info : FdInfo) :
    refs (w.withTable ti (taken t fd info)) = refs w ∪ {id | info.file = .opened id} := by
  ext id
  have hof : id ∈ refsOf (taken t fd info) ↔ id ∈ refsOf t ∨ info.file = .opened id := by
    constructor
    · rintro ⟨n,flags,hn⟩
      rw [lookup_taken] at hn
      split_ifs at hn
      · cases hn
        exact .inr rfl
      · exact .inl ⟨n,flags,hn⟩
    · rintro (⟨n,flags,hn⟩ | hfile)
      · have hne : n ≠ fd := by
          rintro rfl
          rw [hfd] at hn
          cases hn
        exact ⟨n,flags,by rw [lookup_taken,if_neg hne,hn]⟩
      · exact ⟨fd,info.flags,by rw [lookup_taken,if_pos rfl,← hfile]⟩
  have hold : id ∈ refs (w.withTable ti t) ↔ _ := mem_refs_withTable ht t
  rw [withTable_same ht] at hold
  rw [mem_refs_withTable ht,hof,Set.mem_union,hold]
  exact or_right_comm

theorem refs_taken_same (hfd : t.lookup fd = none) {old : ℕ}
    {oldInfo : FdInfo} (hold : t.lookup old = some oldInfo) (hfile : info.file = oldInfo.file) :
    refs (w.withTable ti (taken t fd info)) = refs w := by
  rw [refs_taken ht hfd,Set.union_eq_left]
  intro id hid
  refine mem_refs.mpr ⟨ti,t,ht,old,oldInfo.flags,?_⟩
  rw [hold,← show oldInfo.file = .opened id from hfile.symm.trans hid]

end

end Tables

section Closing

theorem onDisk_ok {a : α} (h : x s.disk = .ok a disk) :
    onDisk x s = .ok a { s with disk := disk } := by
  unfold onDisk
  rw [h]

theorem onDisk_error {e : VirtMemoryModel.Errno} (h : x s.disk = .error e disk) :
    onDisk x s = .error (.errno e) { s with disk := disk } := by
  unfold onDisk
  rw [h]

variable {f : FileMeta} (lw : Lwext4 δ)

def LastClose (w : World δ) (ino id : ℕ) : Prop :=
  Ext4File w.vfs ino ∧ linksOf w.vfs ino = ∅ ∧ heldOf w ino = {id}

theorem lastClose_iff (h : Sound dev w) (hid : id ∈ heldOf w f.fInode)
    (hd : w.vfs.dentries f.fDentry = some d) (hino : d.dInode = f.fInode)
    (hi : w.vfs.inodes f.fInode = some i) :
    LastClose w f.fInode id ↔
      i.iMode = .Regular ∧ d.kind = .ext4 ∧ i.iLinkCount = 0 ∧ i.iOpenCount = 1 := by
  have hopen := h.counted _ i hi
  have hentry : entryOf w.vfs f.fDentry = some (d.kind, f.fInode) := by rw [entryOf_eq hd,hino]
  have hone : heldOf w f.fInode = {id} ↔ i.iOpenCount = 1 := by
    rw [hopen,Set.ncard_eq_one]
    constructor
    · exact fun heq => ⟨id,heq⟩
    · rintro ⟨x,hx⟩
      rw [hx] at hid ⊢
      rw [Set.mem_singleton_iff.mp hid]
  have hlinks : i.iMode = .Regular → (linksOf w.vfs f.fInode = ∅ ↔ i.iLinkCount = 0) := by
    intro hmode
    rw [h.links.counted _ i hi hmode,Set.ncard_eq_zero (linksOf_finite h.tree _)]
  unfold LastClose
  rw [hone]
  constructor
  · rintro ⟨⟨⟨c,hc⟩,j,hj,hmode⟩,hempty,hcount⟩
    cases hi.symm.trans hj
    exact ⟨hmode,h.links.kinds _ _ _ _ _ hentry hc,(hlinks hmode).mp hempty,hcount⟩
  · rintro ⟨hmode,hkind,hzero,hcount⟩
    exact ⟨⟨⟨_,hkind ▸ hentry⟩,i,hi,hmode⟩,(hlinks hmode).mpr hzero,hcount⟩

structure Closing (w : World δ) (id : ℕ) (f : FileMeta) (d : Dentry) (i : InodeMeta) (s : Vfs δ) :
    Prop where
  tree : SameTree w.vfs s
  links : LinkInv s
  inodes : s.inodes = update w.vfs.inodes f.fInode
    (some { i with iOpenCount := i.iOpenCount - 1 })
  calls : LastClose w f.fInode id ∧ s.rmfiles = w.vfs.rmfiles ++ [(f.fInode, d.dPath)] ∨
    ¬ LastClose w f.fInode id ∧ s.rmfiles = w.vfs.rmfiles

theorem fileClose_closes (h : Sound dev w) (hid : id ∈ heldOf w f.fInode)
    (hd : w.vfs.dentries f.fDentry = some d) (hino : d.dInode = f.fInode)
    (hi : w.vfs.inodes f.fInode = some i) (hfit : i.iOpenCount ≤ wordSize) :
    Holds (fileClose lw f) w.vfs
      (fun _ s => Closing w id f d i s ∧
        (LastClose w f.fInode id → ∃ disk, lw.rmfile d.dPath w.vfs.disk = .ok () disk))
      (After fun s => Closing w id f d i s ∧ LastClose w f.fInode id ∧
        ∀ disk, lw.rmfile d.dPath w.vfs.disk ≠ .ok () disk) := by
  have hopen := h.counted _ i hi
  have hpos : 0 < i.iOpenCount := by
    rw [hopen,Set.ncard_pos (h.held_finite _)]
    exact ⟨id,hid⟩
  have hiff := lastClose_iff h hid hd hino hi
  have hpred := wordPred_eq hpos hfit
  have hlinks := h.links.setOpen hi (i.iOpenCount - 1)
  refine holds_bind_ok (dentry_eq hd) (holds_bind_ok (inodeMeta_eq hi) ?_)
  rw [hpred]
  refine holds_bind_ok (t := w.vfs.setInode f.fInode
    { i with iOpenCount := i.iOpenCount - 1 }) rfl ?_
  split
  · rename_i hcond
    split_ifs with hmode
    · have hlast : LastClose w f.fInode id := hiff.mpr ⟨hmode,hcond.1,hcond.2.1,by omega⟩
      have hclosing : ∀ disk, Closing w id f d i
          { w.vfs.setInode f.fInode { i with iOpenCount := i.iOpenCount - 1 } with
            disk := disk, rmfiles := w.vfs.rmfiles ++ [(f.fInode, d.dPath)] } := fun disk =>
        ⟨⟨rfl,rfl,rfl,rfl⟩,
          ⟨hlinks.inodes,hlinks.fresh,hlinks.kinds,hlinks.placed,hlinks.counted⟩,rfl,
          .inl ⟨hlast,rfl⟩⟩
      refine holds_bind_ok rfl ?_
      cases hrm : lw.rmfile d.dPath w.vfs.disk with
      | ok _ disk => exact holds_ok (onDisk_ok hrm) ⟨hclosing disk,fun _ => ⟨disk,rfl⟩⟩
      | error e disk =>
        exact holds_error (onDisk_error hrm) fun _ _ => ⟨hclosing disk,hlast,fun _ heq => by
          cases heq⟩
    · exact stop_after
  · rename_i hcond
    have hlast : ¬ LastClose w f.fInode id := fun hl => by
      obtain ⟨-,hkind,hzero,hone⟩ := hiff.mp hl
      exact hcond ⟨hkind,hzero,by omega⟩
    exact holds_pure ⟨⟨⟨rfl,rfl,rfl,rfl⟩,hlinks,rfl,.inr ⟨hlast,rfl⟩⟩,
      fun hl => (hlast hl).elim⟩

def PathFree (s : Vfs δ) (ino : ℕ) (path : Str) : Prop :=
  ∀ c e, At (topOf s) s (components path) c → entryOf s c = some e → e.2 = ino

theorem Closing.inode (hc : Closing w id f d i s) {n : ℕ} {j : InodeMeta}
    (hj : s.inodes n = some j) : n = f.fInode ∧ j = { i with iOpenCount := i.iOpenCount - 1 } ∨
      n ≠ f.fInode ∧ w.vfs.inodes n = some j := by
  rw [hc.inodes] at hj
  exact NamedTrees.update_cases hj

section

variable (h : Sound dev w) (hid : id ∈ heldOf w f.fInode) (hi : w.vfs.inodes f.fInode = some i)
  (hc : Closing w id f d i w'.vfs) (hfiles : w'.files = w.files)
include h hid hi hc hfiles

theorem kept_not_counted (hrefs : refs w' = refs w) : ¬ LifeCounted w w' := by
  rintro ⟨hcounted,-,-⟩
  have hafter := hcounted f.fInode { i with iOpenCount := i.iOpenCount - 1 } (by
    rw [hc.inodes,update_self])
  have hbefore := h.counted _ i hi
  have hpos : 0 < (heldOf w f.fInode).ncard := (Set.ncard_pos (h.held_finite _)).mpr ⟨id,hid⟩
  rw [heldOf_eq hrefs hfiles] at hafter
  simp only at hafter
  omega

theorem closed_counted_iff (hnext : w'.nextFile = w.nextFile)
    (htables : ∀ t ∈ w'.tables, TableInv t) (hrefs : refs w' = refs w \ {id}) :
    (LifeCounted w w' ↔ (LastClose w f.fInode id → PathFree w.vfs f.fInode d.dPath)) ∧
      Sound dev w' := by
  have hheld : ∀ n, heldOf w' n = heldOf w n \ {id} := by
    intro n
    ext x
    simp only [heldOf,Set.mem_ofPred_eq,Set.mem_sdiff,hrefs,hfiles]
    tauto
  have hsame : ∀ n, n ≠ f.fInode → heldOf w' n = heldOf w n := by
    intro n hn
    rw [hheld,Set.sdiff_singleton_eq_self]
    intro hmem
    have heq := hmem.2.symm.trans hid.2
    exact hn (Option.some.inj heq)
  have hcard := Set.ncard_sdiff_singleton_add_one hid (h.held_finite _)
  have hbefore := h.counted _ i hi
  have hcounted : ∀ n j, w'.vfs.inodes n = some j → j.iOpenCount = (heldOf w' n).ncard := by
    intro n j hj
    rcases hc.inode hj with ⟨rfl,rfl⟩ | ⟨hne,hj⟩
    · rw [hheld]
      simp only
      omega
    · rw [hsame n hne]
      exact h.counted n j hj
  have hdead : ∀ n, n ≠ f.fInode → (Dead w' n ↔ Dead w n) := by
    intro n hn
    unfold Dead
    rw [hsame n hn,linksOf_same hc.tree,hc.inodes,update_of_ne hn]
  have hfile : Ext4File w'.vfs f.fInode ↔ Ext4File w.vfs f.fInode := by
    unfold Ext4File
    rw [entryOf_same hc.tree,hc.inodes,update_self,hi]
    simp
  have hlast : Ext4File w'.vfs f.fInode ∧ Dead w' f.fInode ↔ LastClose w f.fInode id := by
    unfold Dead LastClose
    rw [hfile,hheld,linksOf_same hc.tree,hc.inodes,update_self,Set.sdiff_eq_empty,
      Set.Nonempty.subset_singleton_iff ⟨id,hid⟩]
    simp
  have htop : topOf w'.vfs = topOf w.vfs := by
    unfold topOf rootOf
    rw [hc.tree.2.2.2]
  have hfree : PathFree w'.vfs f.fInode d.dPath ↔ PathFree w.vfs f.fInode d.dPath := by
    unfold PathFree
    simp only [htop,hc.tree.at,entryOf_same hc.tree]
  have hle : ∀ n, (heldOf w' n).ncard ≤ (heldOf w n).ncard + 1 := fun n => by
    rw [hheld]
    exact (Set.ncard_le_ncard Set.sdiff_subset (h.held_finite n)).trans (Nat.le_succ _)
  refine ⟨⟨fun hlife hl => ?_,fun himp => ?_⟩,stands_of_treeInv (hc.tree.treeInv h.tree),hc.links,
    htables,fun x g hg => ?_,fun x hx => ?_,hcounted⟩
  · obtain ⟨calls,hrm,-,-,hnamed⟩ := hlife.removed
    obtain ⟨-,hrm'⟩ | ⟨hnot,-⟩ := hc.calls
    · obtain rfl := List.append_cancel_left (hrm.symm.trans hrm')
      exact hfree.mp (hnamed _ List.mem_cons_self)
    · exact (hnot hl).elim
  · obtain ⟨hl,hrm⟩ | ⟨hnot,hrm⟩ := hc.calls
    · obtain ⟨hf',hd'⟩ := hlast.mpr hl
      refine lifeCounted_one h hcounted hle hrm ⟨hf',fun hw => ?_,hd'⟩
        (fun n hne hw hw' => hw ((hdead n hne).mp hw')) (hfree.mpr (himp hl))
      rw [hw.2.2] at hid
      exact hid
    · refine lifeCounted_none h hcounted hle hrm fun n hf' hw hw' => ?_
      by_cases hn : n = f.fInode
      · subst hn
        exact hnot (hlast.mp ⟨hf',hw'⟩)
      · exact hw ((hdead n hn).mp hw')
  · rw [hfiles] at hg
    rw [hnext,entryOf_same hc.tree]
    exact h.files x g hg
  · rw [hfiles]
    rw [hrefs] at hx
    exact h.known x hx.1

end

end Closing

section Calls

variable {p : ℕ} (lw : Lwext4 δ)

/-- The errors that end only the call leave `P`. -/
def Failed {σ : Type} (P : σ → Prop) (e : Fault) (s : σ) : Prop := ∀ err, e = .errno err → P s

section Rules

variable {β : Type} {f : α → Sys δ β} {Q : β → World δ → Prop} {P : World δ → Prop}

theorem orStop_bind {o : Option α} (h : ∀ a, o = some a → Holds (f a) w Q (Failed P)) :
    Holds (orStop o >>= f) w Q (Failed P) := by
  cases o with
  | none => exact fun _ => nofun
  | some a => exact h a rfl

theorem tableOf_bind {f : ℕ → Sys δ β}
    (h : ∀ ti, w.procs[p]? = some ti → Holds (f ti) w Q (Failed P)) :
    Holds (tableOf p >>= f) w Q (Failed P) :=
  orStop_bind (o := w.procs[p]?) h

theorem onTable_holds {x : TableM α} {Q : α → World δ → Prop}
    (h : ∀ ti t, w.procs[p]? = some ti → w.tables[ti]? = some t →
      Holds x t (fun a t' => Q a (w.withTable ti t')) (Failed fun t' => P (w.withTable ti t'))) :
    Holds (onTable p x) w Q (Failed P) := by
  refine tableOf_bind fun ti hp => holds_get (orStop_bind fun t ht => ?_)
  have hx := h ti t hp ht
  unfold Holds at hx
  cases hxt : x t <;> (rw [hxt] at hx; exact hx)

end Rules

theorem calm_refl (h : Sound dev w) : Calm dev (topOf w.vfs) w.vfs w.vfs :=
  ⟨h.tree,h.links,(Extends.refl _).spares⟩

theorem table_step (h : Sound dev w) (inv : TableInv t')
    (hsub : refs (w.withTable ti t') ⊆ refs w) :
    (LifeCounted w (w.withTable ti t') ↔ refs (w.withTable ti t') = refs w) ∧
      (LifeCounted w (w.withTable ti t') → Sound dev (w.withTable ti t')) := by
  have hiff : LifeCounted w (w.withTable ti t') ↔ refs (w.withTable ti t') = refs w :=
    calm_counted_iff h (calm_refl h) rfl hsub
  exact ⟨hiff,fun hlife => calm_sound h (calm_refl h) rfl rfl (tableInv_withTable h.tables inv)
    (hiff.mp hlife)⟩

end Calls

end DuckOs.OpenCounts
