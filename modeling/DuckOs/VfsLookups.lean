import DuckOs.VfsTrees

namespace DuckOs.VfsLookups
open ExecutionRules PathModel VfsModel VfsTrees Function

variable {δ : Type} {dev : Prop} {top : TreeTop} {s s' : Vfs δ}

variable {I J : Vfs δ → Prop} {p : AddressModel.Panic} {α : Type} {E : Fault → Vfs δ → Prop}
  {path name : Str} {l : List Str} {P : List Str → Str → Prop} {e : VirtMemoryModel.Errno}
  {id q : ℕ} {d : Dentry}

def Recovers (dev : Prop) (top : TreeTop) (e : Fault) (s : Vfs δ) : Prop :=
  ∀ x, e = .errno x → TreeInv dev top s

def After (I : Vfs δ → Prop) (e : Fault) (s : Vfs δ) : Prop := ∀ x, e = .errno x → I s

def Panics (e : Fault) (_ : Vfs δ) : Prop := ∀ x, e ≠ .errno x

theorem Panics.after {e : Fault} (h : Panics e s) : After I e s :=
  fun x hx => (h x hx).elim

theorem holds_after {x : Fs δ α} {Q : α → Vfs δ → Prop} (h : Holds x s Q Panics) :
    Holds x s Q (After I) :=
  h.onError fun _ _ hp => hp.after

theorem stop_after {Q : α → Vfs δ → Prop} : Holds (stop p : Fs δ α) s Q (After I) :=
  holds_throw fun _ h => (by cases h)

theorem fail_after {Q : α → Vfs δ → Prop} (h : I s) : Holds (fail e : Fs δ α) s Q (After I) :=
  holds_throw fun _ _ => h

section Steps

variable {β : Type} {f : α → Fs δ β} {Q : β → Vfs δ → Prop} {o : Option α}

theorem unwrap_bind (h : ∀ a, o = some a → Holds (f a) s Q (After I)) :
    Holds (unwrap o >>= f) s Q (After I) := by
  cases o with
  | none => exact stop_after
  | some a => exact h a rfl

theorem okOr_bind (hI : I s) (h : ∀ a, o = some a → Holds (f a) s Q (After I)) :
    Holds (okOr e o >>= f) s Q (After I) := by
  cases o with
  | none => exact fail_after hI
  | some a => exact h a rfl

theorem dentry_bind {f : Dentry → Fs δ β}
    (h : ∀ d, s.dentries id = some d → Holds (f d) s Q (After I)) :
    Holds (dentry id >>= f) s Q (After I) :=
  unwrap_bind (o := s.dentries id) h

theorem inodeMeta_bind {f : InodeMeta → Fs δ β}
    (h : ∀ i, s.inodes id = some i → Holds (f i) s Q (After I)) :
    Holds (inodeMeta id >>= f) s Q (After I) :=
  unwrap_bind (o := s.inodes id) h

theorem cwdAndName_bind {f : Str → Fs δ β} {cwd : Str}
    (h : ∀ path, joinName name cwd = path → '/' ∉ name → Holds (f path) s Q (After I)) :
    Holds (cwdAndName name cwd >>= f) s Q (After I) := by
  unfold cwdAndName
  split_ifs with hslash
  · exact stop_after
  · exact h _ rfl hslash

end Steps

theorem dentry_eq (h : s.dentries id = some d) : dentry id s = .ok d s := by
  unfold dentry
  rw [get_bind,h]
  rfl

theorem inodeMeta_eq {ino : ℕ} {i : InodeMeta} (h : s.inodes ino = some i) :
    inodeMeta ino s = .ok i s := by
  unfold inodeMeta
  rw [get_bind,h]
  rfl

theorem cwdAndName_eq (h : ValidName name) (cwd : Str) :
    cwdAndName name cwd s = .ok (joinName name cwd) s := by
  unfold cwdAndName
  rw [if_neg h.noSlash]
  rfl

def withInode (s : Vfs δ) (mode : InodeMode) : Vfs δ :=
  { s with
    inodes := update s.inodes s.nextInode (some ⟨mode, 1, 0⟩)
    nextInode := s.nextInode + 1 }

theorem newInode_holds (mode : InodeMode) :
    Holds (newInode mode) s (fun _ s' => SameTree s s') E :=
  holds_ok rfl ⟨rfl,rfl,rfl,rfl⟩

def DiskOnly (s s' : Vfs δ) : Prop := ∃ disk, s' = { s with disk := disk }

theorem DiskOnly.sameTree (h : DiskOnly s s') : SameTree s s' := by
  obtain ⟨disk,rfl⟩ := h
  exact ⟨rfl,rfl,rfl,rfl⟩

theorem onDisk_changes (x : EStateM VirtMemoryModel.Errno δ α) :
    Holds (onDisk x) s (fun _ s' => DiskOnly s s') fun _ s' => DiskOnly s s' := by
  unfold Holds onDisk
  cases x s.disk with
  | ok a disk => exact ⟨disk,rfl⟩
  | error e disk => exact ⟨disk,rfl⟩

theorem onDisk_after (x : EStateM VirtMemoryModel.Errno δ α)
    (h : ∀ disk, I { s with disk := disk }) : Holds (onDisk x) s (fun _ t => I t) (After I) := by
  refine (onDisk_changes x).mono ?_ ?_
  · rintro _ _ ⟨disk,rfl⟩
    exact h disk
  · rintro _ _ ⟨disk,rfl⟩ _ -
    exact h disk

theorem tryDisk_holds (x : EStateM VirtMemoryModel.Errno δ Unit) :
    Holds (tryDisk x) s (fun _ s' => DiskOnly s s') E := by
  unfold Holds tryDisk
  cases x s.disk with
  | ok a disk => exact ⟨disk,rfl⟩
  | error e disk => exact ⟨disk,rfl⟩

theorem loadInode_holds (lw : Lwext4 δ) (path : Str) :
    Holds (loadInode lw path) s (fun r s' => ∃ disk, r = none ∧ s' = { s with disk := disk } ∨
      ∃ mode, r = some s.nextInode ∧ s' = withInode { s with disk := disk } mode) E := by
  refine holds_get ?_
  split_ifs
  · refine (tryDisk_holds _).bind ?_
    rintro b _ ⟨disk,rfl⟩
    cases b with
    | true => exact holds_ok rfl ⟨disk,.inr ⟨_,rfl,rfl⟩⟩
    | false => exact holds_pure ⟨disk,.inl ⟨rfl,rfl⟩⟩
  · refine (tryDisk_holds _).bind ?_
    rintro b _ ⟨disk,rfl⟩
    cases b with
    | true => exact holds_ok rfl ⟨disk,.inr ⟨_,rfl,rfl⟩⟩
    | false => exact holds_pure ⟨disk,.inl ⟨rfl,rfl⟩⟩
  · exact holds_ok rfl ⟨s.disk,.inr ⟨_,rfl,rfl⟩⟩
  · exact holds_pure ⟨s.disk,.inl ⟨rfl,rfl⟩⟩

section Adding

def addEntry (s : Vfs δ) (d : Dentry) : Vfs δ :=
  { s with
    dentries := update s.dentries s.nextDentry (some d)
    nextDentry := s.nextDentry + 1 }

variable {dq : Dentry}

section

variable (inv : TreeInv dev top s) (hq : s.dentries q = some dq)
include inv hq

theorem addEntry_parent (dc : Dentry) :
    q ≠ s.nextDentry ∧ (addEntry s dc).dentries q = some dq := by
  have hne : q ≠ s.nextDentry := by
    intro heq
    rw [inv.fresh q (by omega)] at hq
    cases hq
  exact ⟨hne,(update_of_ne hne _ _).trans hq⟩

theorem addEntry_attaching (name : Str) (dc : Dentry) :
    Attaching s q name s.nextDentry dq dc
      (((addEntry s dc).insertChild q name s.nextDentry).cacheInsert dc.dPath s.nextDentry) := by
  obtain ⟨hne,hparent⟩ := addEntry_parent inv hq dc
  refine ⟨?_,?_,fun id hid hidc => ?_,fun p => ?_,rfl,Nat.le_succ _,Nat.lt_succ_self _⟩
  · change update (addEntry s dc).dentries q _ q = _
    rw [update_self,hparent]
    rfl
  · change update (addEntry s dc).dentries q _ s.nextDentry = _
    rw [update_of_ne hne.symm]
    exact update_self _ _ _
  · change update (addEntry s dc).dentries q _ id = _
    rw [update_of_ne hid]
    exact update_of_ne hidc _ _
  · exact lookup_inserted s.cache dc.dPath s.nextDentry p

theorem joined_path (hname : ValidName name) :
    ∃ l : List Str, (∀ n ∈ l, ValidName n) ∧ joinName name dq.dPath = absolute l := by
  obtain ⟨l,hvalid,hpath⟩ := inv.paths q dq hq
  refine ⟨l ++ [name],fun n hn => ?_,by rw [hpath,joinName_absolute hvalid]⟩
  rcases List.mem_append.mp hn with h | h
  · exact hvalid n h
  · rw [List.mem_singleton.mp h]
    exact hname

end

def Plain (name : Str) : Prop := formatPath name = name

instance decidablePlain (name : Str) : Decidable (Plain name) :=
  inferInstanceAs (Decidable (formatPath name = name))

def PlainPath (path : Str) : Prop := ∀ name ∈ components path, Plain name

instance decidablePlainPath (path : Str) : Decidable (PlainPath path) :=
  inferInstanceAs (Decidable (∀ name ∈ components path, Plain name))

theorem PlainPath.parent (h : PlainPath path) : PlainPath (parentPath path) := by
  intro name hname
  rw [components_parentPath_dropLast] at hname
  exact h name (List.mem_of_mem_dropLast hname)

theorem PlainPath.last {a : Str} (h : PlainPath path)
    (hp : components path = l ++ [a]) : ValidName a ∧ Plain a := by
  have hmem : a ∈ components path := by simp [hp]
  exact ⟨validName_of_mem_components hmem,h a hmem⟩

theorem attachable_entry (inv : TreeInv dev top s) (hq : s.dentries q = some dq)
    (hat : At top s l q) (hkq : dq.kind ≠ .device) (hname : ValidName name)
    (hplain : top.named → Plain name) (hreplaced : ∀ e, childOf s q name = some e → Leaf s e)
      (kind : DentryKind)
    (hk : kind ≠ .device) (inode : ℕ) :
    Attachable dev top s q name s.nextDentry dq
      ⟨kind, formatPath name, joinName name dq.dPath, inode, some q, ∅⟩ :=
  attachable_fresh inv hq hkq hname (fun e he => ⟨hreplaced e he,hk⟩) hplain rfl
    (fun _ => AList.lookup_empty _) (fun hd => (hk hd).elim) (fun hd => (hk hd).elim)
      (joined_path inv hq hname) (fun _ => rfl) (fun _ => ⟨l,hat⟩)

def withEntry (s : Vfs δ) (this : ℕ) (d : Dentry) (name : Str) (inode : ℕ) : Vfs δ :=
  ((addEntry s ⟨.ext4, formatPath name, joinName name d.dPath, inode, some this, ∅⟩).insertChild
    this name s.nextDentry).cacheInsert (joinName name d.dPath) s.nextDentry

theorem withEntry_grows (inv : TreeInv dev top s)
    (hat : At top s l q) (hq : s.dentries q = some dq) (hk : dq.kind ≠ .device)
    (hname : ValidName name) (hplain : top.named → Plain name) (hfree : childOf s q name = none)
    (hP : P l name) (inode : ℕ) :
    TreeInv dev top (withEntry s q dq name inode) ∧
      Grows top P s (withEntry s q dq name inode) ∧
      ∀ a, childOf (withEntry s q dq name inode) q a =
        if a = name then some s.nextDentry else childOf s q a := by
  have ok := attachable_entry inv hq hat hk hname hplain (fun e he => by
    rw [hfree] at he
    cases he) .ext4 ext4_ne_device inode
  have hattach := addEntry_attaching inv hq name
    ⟨.ext4,formatPath name,joinName name dq.dPath,inode,some q,∅⟩
  refine ⟨hattach.treeInv ok inv,
    hattach.grows ok hfree (inv.fresh _ le_rfl) rfl hat hP,fun a => ?_⟩
  exact (hattach.childOf_eq ok q a).trans (by simp)

structure Kept (dev : Prop) (top : TreeTop) (J : Vfs δ → Prop) : Prop where
  disk : ∀ {s : Vfs δ} (disk : δ), J s → J { s with disk := disk }
  learn : ∀ {s : Vfs δ} (path : Str) (c : ℕ), J s → J (s.cacheInsert path c)
  entry : ∀ {s : Vfs δ} {q : ℕ} {dq : Dentry} {l : List Str} {name : Str} (mode : InodeMode),
    TreeInv dev top s → At top s l q → s.dentries q = some dq → dq.kind = .ext4 →
    ValidName name → (top.named → Plain name) → childOf s q name = none → J s →
    J (withEntry (withInode s mode) q dq name s.nextInode)

theorem kept_true : Kept dev top fun _ : Vfs δ => True :=
  ⟨fun _ _ => trivial,fun _ _ _ => trivial,fun _ _ _ _ _ _ _ _ _ => trivial⟩

end Adding

section Lookups

variable (lw : Lwext4 δ)

theorem lookUp_keeps (hJ : Kept dev top J) (inv : TreeInv dev top s) (hat : At top s l q)
    (hname : ValidName name) (hplain : top.named → Plain name) (hP : P l name) (hs : J s) :
    Holds (lookUp lw q name) s
      (fun r s' => (TreeInv dev top s' ∧ Grows top P s s' ∧ childOf s' q name = r) ∧ J s')
      Panics := by
  obtain ⟨dq,hq⟩ := inv.exists_of_at hat
  have hsame := SameTree.refl s
  refine holds_bind_ok (dentry_eq hq) ?_
  cases hkind : dq.kind with
  | device =>
    refine holds_pure ⟨⟨inv,hsame.grows _,?_⟩,hs⟩
    by_contra hne
    obtain ⟨c,hc⟩ := Option.ne_none_iff_exists'.mp hne
    obtain ⟨dq',_,hq',_,hk,_⟩ := inv.edge _ _ _ hc
    cases hq.symm.trans hq'
    exact hk hkind
  | simple => exact holds_pure ⟨⟨inv,hsame.grows _,childOf_eq hq name⟩,hs⟩
  | ext4 =>
    cases hchild : dq.dChild.lookup name with
    | some c => exact holds_pure ⟨⟨inv,hsame.grows _,(childOf_eq hq name).trans hchild⟩,hs⟩
    | none =>
      refine cwdAndName_bind ?_
      rintro _ rfl -
      refine (loadInode_holds lw _).bind ?_
      have hfree : childOf s q name = none := by rw [childOf_eq hq,hchild]
      rintro found s₁ ⟨disk,⟨rfl,rfl⟩ | ⟨mode,rfl,rfl⟩⟩
      · have h₁ : SameTree s { s with disk := disk } := ⟨rfl,rfl,rfl,rfl⟩
        exact holds_pure ⟨⟨h₁.treeInv inv,h₁.grows _,hfree⟩,hJ.disk disk hs⟩
      · have h₁ : SameTree s (withInode { s with disk := disk } mode) := ⟨rfl,rfl,rfl,rfl⟩
        have h₂ : SameTree s { s with disk := disk } := ⟨rfl,rfl,rfl,rfl⟩
        have hkq : dq.kind ≠ .device := by rw [hkind]; exact ext4_ne_device
        obtain ⟨inv',hg,hchildren⟩ := withEntry_grows (h₁.treeInv inv) (h₁.at.mpr hat) hq hkq hname
          hplain (by rw [h₁.childOf_eq]; exact hfree) hP s.nextInode
        refine holds_ok rfl ⟨⟨inv',(h₁.grows P).trans hg,?_⟩,?_⟩
        · exact (hchildren name).trans (if_pos rfl)
        · exact hJ.entry mode (h₂.treeInv inv) (h₂.at.mpr hat) hq hkind hname hplain hfree
            (hJ.disk disk hs)

theorem lookUp_holds (inv : TreeInv dev top s) (hat : At top s l q) (hname : ValidName name)
    (hplain : top.named → Plain name) (hP : P l name) : Holds (lookUp lw q name) s
      (fun r s' => TreeInv dev top s' ∧ Grows top P s s' ∧ childOf s' q name = r)
      (Recovers dev top) :=
  holds_after ((lookUp_keeps lw kept_true inv hat hname hplain hP trivial).imp fun _ _ h => h.1)

/-- `I l q` is what holds when the walk along `full` stands at `q` with the names `l` behind it. -/
theorem walkPath_rule {I : List Str → ℕ → Vfs δ → Prop} {Q : Option ℕ → Vfs δ → Prop}
    {E : Fault → Vfs δ → Prop} {full : List Str}
    (place : ∀ {l q s}, I l q s → TreeInv dev top s ∧ At top s l q)
    (stop : ∀ {q s}, I full q s → Q (some q) s)
    (learn : ∀ {l q s name next d}, Along full l name → I l q s → At top s (l ++ [name]) next →
      s.dentries next = some d → I (l ++ [name]) next (s.cacheInsert d.dPath next))
    (look : ∀ {l q s name}, Along full l name → I l q s → childOf s q name = none →
      Holds (lookUp lw q name) s
        (fun r s' => (r = none → Q none s') ∧ ∀ c, r = some c → I (l ++ [name]) c s') E) :
    ∀ (names l : List Str) (q : ℕ) (s : Vfs δ), full = l ++ names → I l q s →
    Holds (walkPath lw q names) s Q E := by
  intro names
  induction names with
  | nil =>
    intro l q s hfull h
    rw [List.append_nil] at hfull
    exact holds_pure (stop (hfull ▸ h))
  | cons name rest ih =>
    intro l q s hfull h
    have hfull' : full = (l ++ [name]) ++ rest := by
      rw [hfull,List.append_assoc,List.singleton_append]
    have hpre : Along full l name := hfull' ▸ List.prefix_append _ _
    obtain ⟨inv,hat⟩ := place h
    obtain ⟨dq,hq⟩ := inv.exists_of_at hat
    refine holds_bind_ok (dentry_eq hq) ?_
    cases hchild : dq.dChild.lookup name with
    | some next =>
      have hnext := hat.child ((childOf_eq hq name).trans hchild)
      obtain ⟨dn,hdn⟩ := inv.exists_of_at hnext
      refine holds_bind_ok (dentry_eq hdn) ?_
      refine holds_bind_ok (t := s.cacheInsert dn.dPath next) rfl ?_
      exact ih _ next _ hfull' (learn hpre h hnext hdn)
    | none =>
      refine (look hpre h ((childOf_eq hq name).trans hchild)).bind ?_
      rintro found s₁ ⟨hnone,hsome⟩
      cases found with
      | none => exact holds_pure (hnone rfl)
      | some next => exact ih _ next s₁ hfull' (hsome next rfl)

theorem grows_learn (path : Str) (c : ℕ) : Grows top P s (s.cacheInsert path c) :=
  ⟨rfl,fun _ _ _ he => he,fun _ d hd => ⟨d.dChild,hd⟩,
    fun _ d hd => .inr ⟨d,hd,rfl,rfl⟩,fun _ _ _ he => .inl he⟩

theorem walkPath_keeps (hJ : Kept dev top J) {full : List Str} (inv : TreeInv dev top s)
    (hat : At top s [] q) (hnames : ∀ name ∈ full, ValidName name ∧ (top.named → Plain name))
    (hs : J s) :
    Holds (walkPath lw q full) s
      (fun r s' => (TreeInv dev top s' ∧ Grows top (Along full) s s' ∧
        ∀ c, r = some c ↔ At top s' full c) ∧ J s')
      Panics := by
  refine walkPath_rule lw (I := fun l q t => (TreeInv dev top t ∧ At top t l q) ∧
    Grows top (Along full) s t ∧ J t) (fun h => h.1) ?_ ?_ ?_ full [] q s rfl
    ⟨⟨inv,hat⟩,(SameTree.refl s).grows _,hs⟩
  · rintro q t ⟨⟨invt,hatt⟩,hg,ht⟩
    refine ⟨⟨invt,hg,fun c => ?_⟩,ht⟩
    rw [Option.some.injEq]
    exact ⟨fun hc => hc ▸ hatt,fun hc => hatt.unique hc⟩
  · rintro l q t name next d - ⟨⟨invt,-⟩,hg,ht⟩ hnext hd
    exact ⟨⟨invt.learn hnext hd,hnext⟩,hg.trans (grows_learn _ _),hJ.learn _ _ ht⟩
  · rintro l q t name hpre ⟨⟨invt,hatt⟩,hg,ht⟩ -
    obtain ⟨hname,hplain⟩ := hnames name (hpre.subset (by simp))
    refine (lookUp_keeps lw hJ invt hatt hname hplain hpre ht).imp ?_
    rintro found t₁ ⟨⟨inv₁,hg₁,rfl⟩,ht₁⟩
    have hat₁ := hg₁.at hatt
    refine ⟨fun hnone => ⟨⟨inv₁,hg.trans hg₁,fun c => ⟨fun hc => (by cases hc),fun hc => ?_⟩⟩,ht₁⟩,
      fun c hc => ⟨⟨inv₁,hat₁.child hc⟩,hg.trans hg₁,ht₁⟩⟩
    obtain ⟨rest,rfl⟩ := hpre
    obtain ⟨e,he⟩ := hc.of_prefix
    obtain ⟨q',hq',he'⟩ := he.of_append
    rw [hq'.unique hat₁,hnone] at he'
    cases he'

theorem rootDentry_panics :
    Holds (rootDentry : Fs δ ℕ) s (fun r s' => s = s' ∧ rootOf s = some r) Panics := by
  refine holds_get ?_
  refine unwrap_bind fun fs hfs => ?_
  cases hroot : fs.rootDentry with
  | none => exact stop_after
  | some r => exact holds_pure ⟨rfl,by rw [rootOf,hfs,Option.bind_some,hroot]⟩

theorem rootDentry_eq {r : ℕ} (h : rootOf s = some r) : (rootDentry : Fs δ ℕ) s = .ok r s := by
  obtain ⟨fs,hfs,hfr⟩ := Option.bind_eq_some_iff.mp h
  unfold rootDentry
  rw [get_bind,hfs,bind_ok (rfl : unwrap (some fs) s = .ok fs s),hfr]
  rfl

structure Found (dev : Prop) (top : TreeTop) (path : Str) (s : Vfs δ) (r : Option ℕ)
    (s' : Vfs δ) : Prop where
  inv : TreeInv dev top s'
  grows : Grows top (Along (components path)) s s'
  entry : ∀ c, r = some c → ∃ d, s'.dentries c = some d ∧
    (d.kind ≠ .device → At top s' (components path) c)
  place : ∀ c, r = some c → NoDevice top s path → At top s' (components path) c
  absent : r = none → components path ≠ [] ∧ ∀ c, ¬ At top s' (components path) c

theorem Found.ordinary {c : ℕ} (h : Found dev top path s (some c) s') (inv : TreeInv dev top s)
    (hdev : NoDevice top s path) (hd : s'.dentries c = some d) : d.kind ≠ .device := fun hk =>
  (hdev.grows h.grows inv c d hd hk).2 (h.place c rfl hdev)

section

variable (hJ : Kept dev top J) (inv : TreeInv dev top s) (hplain : top.named → PlainPath path)
  (hs : J s)
include hJ inv hplain hs

theorem pathToDentry_walks (hcache : s.cache.lookup path = none) :
    Holds (pathToDentry lw path) s (fun r s' => (TreeInv dev top s' ∧
      Grows top (Along (components path)) s s' ∧
      (∀ c, r = some c ↔ At top s' (components path) c) ∧ ∃ r, top.root = some r) ∧
        J s') Panics := by
  refine holds_get ?_
  rw [hcache]
  refine rootDentry_panics.bind ?_
  rintro r _ ⟨rfl,hr⟩
  have hat : At top s [] r := ⟨r,inv.rooted r hr,.root⟩
  have hnames : ∀ name ∈ components path, ValidName name ∧ (top.named → Plain name) :=
    fun name hname => ⟨validName_of_mem_components hname,fun hn => hplain hn name hname⟩
  refine (walkPath_keeps lw hJ inv hat hnames hs).imp ?_
  rintro found s' ⟨⟨inv',hg,hfound⟩,hs'⟩
  exact ⟨⟨inv',hg,hfound,r,inv.rooted r hr⟩,hs'⟩

theorem pathToDentry_keeps :
    Holds (pathToDentry lw path) s (fun r s' => Found dev top path s r s' ∧ J s') Panics := by
  cases hcache : s.cache.lookup path with
  | some found =>
    obtain ⟨d,hd,-⟩ := inv.cached path found hcache
    refine holds_get ?_
    rw [hcache]
    refine holds_pure ⟨⟨inv,(SameTree.refl s).grows _,fun c hc => ?_,fun c hc hdev => ?_,
      fun hc => (by cases hc)⟩,hs⟩
    · cases hc
      exact ⟨d,hd,fun hk => inv.at_of_cached hcache hd hk⟩
    · cases hc
      exact hdev.at_of_cached inv hcache
  | none =>
    refine (pathToDentry_walks lw hJ inv hplain hs hcache).imp ?_
    rintro found s' ⟨⟨inv',hg,hfound,r,hr⟩,hs'⟩
    refine ⟨⟨inv',hg,fun c hc => ?_,fun c hc _ => (hfound c).mp hc,fun hnone => ?_⟩,hs'⟩
    · have hat := (hfound c).mp hc
      obtain ⟨d,hd⟩ := inv'.exists_of_at hat
      exact ⟨d,hd,fun _ => hat⟩
    · subst hnone
      have habsent : ∀ c, ¬ At top s' (components path) c := fun c hc => by
        cases (hfound c).mpr hc
      refine ⟨fun hnil => habsent r ?_,habsent⟩
      rw [hnil]
      exact ⟨r,hr,.root⟩

end

theorem pathToDentry_holds (inv : TreeInv dev top s)
    (hplain : top.named → PlainPath path) :
    Holds (pathToDentry lw path) s (Found dev top path s) (Recovers dev top) :=
  holds_after ((pathToDentry_keeps lw kept_true inv hplain trivial).imp fun _ _ h => h.1)

end Lookups

end DuckOs.VfsLookups
