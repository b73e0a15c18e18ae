import DuckOs.LookupEffects

namespace DuckOs.UnlinkedPaths
open ExecutionRules NamedTrees PathModel VfsModel VfsTrees VfsLookups VfsCalls VfsMounts
  VfsResolution LookupEffects

variable {δ : Type} {dev : Prop} {top : TreeTop} {lw : Lwext4 δ} {s s₁ s₂ s₃ : Vfs δ}
  {path cwd a : Str} {l : List Str} {c q x : ℕ} {d dq : Dentry} {i : InodeMeta}

/-- The path names a regular file of the tree. -/
structure RegularAt (dev : Prop) (s : Vfs δ) (path : Str) (c : ℕ) (d : Dentry) (i : InodeMeta) :
    Prop where
  inv : TreeInv dev (looseTop s) s
  place : At (looseTop s) s (components path) c
  entry : s.dentries c = some d
  kind : d.kind = .ext4
  inode : s.inodes d.dInode = some i
  mode : i.iMode = .Regular
  leaf : Leaf s c

theorem RegularAt.ordinary (h : RegularAt dev s path c d i) : d.kind ≠ .device := by
  rw [h.kind]
  exact ext4_ne_device

theorem RegularAt.split (h : RegularAt dev s path c d i) (hq : d.dParent = some q) :
    ∃ l, components path = l ++ [dentryName path] ∧ At (looseTop s) s l q ∧
      childOf s q (dentryName path) = some c := by
  obtain ⟨r,hr,hl⟩ := h.place
  generalize hp : components path = names at hl
  cases hl with
  | root =>
    obtain ⟨d',hd',-,-,hnone⟩ := h.inv.root _ hr
    cases h.entry.symm.trans hd'
    rw [hq] at hnone
    cases hnone
  | @step l q' _ a hl' edge =>
    obtain ⟨_,d',_,hd',_,_,_,hparent,_⟩ := h.inv.edge _ _ _ edge
    cases h.entry.symm.trans hd'
    cases hq.symm.trans hparent
    rw [dentryName_append hp]
    exact ⟨l,rfl,⟨r,hr,hl'⟩,edge⟩

theorem RegularAt.apart (h : RegularAt dev s path c d i) (hq : d.dParent = some q) : c ≠ q := by
  rintro rfl
  obtain ⟨_,-,-,hedge⟩ := h.split hq
  rw [h.leaf] at hedge
  cases hedge

def unlinked (s : Vfs δ) (q c : ℕ) (d : Dentry) : Vfs δ :=
  ((s.withDentry c fun d => { d with dParent := none }).cacheRemove d.dPath).removeChild q d.dName

def Dropped (lw : Lwext4 δ) (kind : DentryKind) (d : Dentry) (i : InodeMeta) (disk disk' : δ) :
    Prop :=
  if kind = .ext4 ∧ wordPred i.iLinkCount = 0 ∧ i.iOpenCount = 0 then
    lw.rmfile d.dPath disk = .ok () disk'
  else disk' = disk

theorem dropNode_regular (hi : s.inodes d.dInode = some i) (hmode : i.iMode = .Regular)
    {kind : DentryKind} (h : dropNode lw kind d s = .ok () s₁) :
    SameTree s s₁ ∧ Dropped lw kind d i s.disk s₁.disk := by
  unfold dropNode at h
  rw [bind_ok (inodeMeta_eq hi),hmode] at h
  obtain ⟨_,t,ht,h⟩ := bind_eq_ok h
  cases ht
  unfold Dropped
  split_ifs with hcond
  · rw [if_pos hcond] at h
    obtain ⟨_,t,ht,h⟩ := bind_eq_ok h
    cases ht
    unfold onDisk at h
    split at h
    · rename_i disk' hdisk
      cases h
      exact ⟨⟨rfl,rfl,rfl,rfl⟩,hdisk⟩
    · cases h
  · rw [if_neg hcond] at h
    cases h
    exact ⟨⟨rfl,rfl,rfl,rfl⟩,rfl⟩

theorem sysUnlinkat_ok {removeDir : Bool} (hres : pathToDentry lw path s = .ok (some c) s₁)
    (h : RegularAt dev s₁ path c d i) (hq : d.dParent = some q) (hdq : s₁.dentries q = some dq)
    (hcall : sysUnlinkat lw cwd path removeDir s = .ok () s₃) :
    SameTree (unlinked s₁ q c d) s₃ ∧ Dropped lw dq.kind d i s₁.disk s₃.disk := by
  have hk : dq.kind ≠ .device := by
    obtain ⟨_,_,_,hedge⟩ := h.split hq
    obtain ⟨dq',_,hdq',_,hk,_⟩ := h.inv.edge _ _ _ hedge
    cases hdq.symm.trans hdq'
    exact hk
  unfold sysUnlinkat at hcall
  split at hcall
  · cases hcall
  rw [bind_ok hres,bind_ok (rfl : okOr .ENOENT (some c) s₁ = .ok c s₁),
    bind_ok (dentry_eq h.entry),bind_ok (inodeMeta_eq h.inode),h.mode,if_neg (by decide),
    hq] at hcall
  dsimp only at hcall
  unfold unlink at hcall
  rw [bind_ok (dentry_eq hdq),if_neg hk,bind_ok (dentry_eq h.entry)] at hcall
  obtain ⟨_,t,ht,hdrop⟩ := bind_eq_ok hcall
  cases ht
  have hi : (unlinked s₁ q c d).inodes d.dInode = some i := h.inode
  exact dropNode_regular hi h.mode hdrop

theorem wordPred_eq_zero_iff {n : ℕ} (h : n < AddressModel.wordSize) :
    wordPred n = 0 ↔ n = 1 := by
  unfold wordPred AddressModel.wordSize at *
  omega

section Missing

/-- A device of the tree is under the path in the cache as soon as it has been looked up. -/
def Shadowed (top : TreeTop) (s : Vfs δ) (path : Str) : Prop :=
  ∃ l x d, At top s l x ∧ s.dentries x = some d ∧ d.kind = .device ∧ d.dPath = path

structure Missing (dev : Prop) (top : TreeTop) (lw : Lwext4 δ) (path : Str) (l : List Str) (a : Str)
    (q : ℕ) (dq : Dentry) (s : Vfs δ) : Prop where
  inv : TreeInv dev top s
  rooted : rootOf s = top.root
  place : At top s l q
  directory : ∃ children, s.dentries q = some { dq with dChild := children }
  absent : childOf s q a = none
  blocked : dq.kind ≠ .ext4 ∨ loadable lw s.disk (joinName a dq.dPath) = false
  clear : ¬ Shadowed top s path
  uncached : s.cache.lookup path = none

theorem path_ne_of_absent (inv : TreeInv dev top s) (hp : components path = l ++ [a])
    (hl : At top s l q) (hnone : childOf s q a = none) (hclear : ¬ Shadowed top s path)
    {l' : List Str} (hat : At top s l' x) (hd : s.dentries x = some d) : d.dPath ≠ path := by
  intro heq
  by_cases hk : d.kind = .device
  · exact hclear ⟨l',x,d,hat,hd,hk,heq⟩
  · rw [← inv.components_of_at hat hd hk,heq,hp] at hat
    obtain ⟨q',hq',hedge⟩ := hat.of_append
    rw [hq'.unique hl,hnone] at hedge
    cases hedge

section

variable (hlw : Exact lw) (hnamed : ¬ top.named) (hp : components path = l ++ [a])
  (h : Missing dev top lw path l a q dq s)
include hlw hp h

theorem Missing.unresolved : ∃ s', pathToDentry lw path s = .ok none s' := by
  obtain ⟨children,hq⟩ := h.directory
  obtain ⟨r,t,hlook,hsome⟩ :=
    pathToDentry_loads hlw h.inv h.rooted h.place hp hq h.absent h.uncached
  cases r with
  | none => exact ⟨t,hlook⟩
  | some c =>
    obtain ⟨hkind,hload⟩ := hsome.mp rfl
    rcases h.blocked with hne | hfalse
    · exact (hne hkind).elim
    · exact absurd (hfalse.symm.trans hload) (by decide)

include hnamed

theorem Missing.lookUp_kept {l' : List Str} {q' : ℕ} {name : Str} (hat : At top s l' q')
    (hname : ValidName name) (hnone : childOf s q' name = none) :
    Holds (lookUp lw q' name) s (fun r s' => Missing dev top lw path l a q dq s' ∧
      At top s' l' q' ∧ childOf s' q' name = r) fun _ _ => True := by
  obtain ⟨dq',hq'⟩ := h.inv.exists_of_at hat
  have hgrow := VfsLookups.lookUp_holds lw (P := fun l₀ a₀ => l₀ = l' ∧ a₀ = name) h.inv hat hname
    (fun hn => (hnamed hn).elim) ⟨rfl,rfl⟩
  have hload := lookUp_loads hlw (E := fun _ _ => True) hq' hname
    ((childOf_eq hq' name).symm.trans hnone)
  refine ((hgrow.and hload).and (lookUp_caches lw q' name)).mono ?_ fun _ _ _ => trivial
  rintro r s' ⟨⟨⟨inv',hg,hr⟩,hsome,hdisk⟩,hcached⟩
  obtain ⟨children,hq⟩ := h.directory
  obtain ⟨children',hq₁⟩ := hg.kept q _ hq
  have hplace := hg.at h.place
  have habsent : childOf s' q a = none := by
    by_contra hne
    obtain ⟨c,hc⟩ := Option.ne_none_iff_exists'.mp hne
    rcases hg.place inv' hplace hc with hold | ⟨-,rfl,rfl⟩
    · rw [h.absent] at hold
      cases hold
    · obtain rfl := h.place.unique hat
      cases hq.symm.trans hq'
      rw [hc] at hr
      obtain ⟨hkind,hyes⟩ := hsome.mp (by rw [← hr]; rfl)
      rcases h.blocked with hno | hno
      · exact hno hkind
      · exact absurd (hno.symm.trans hyes) (by decide)
  have hclear : ¬ Shadowed top s' path := by
    rintro ⟨l'',x,d,hx,hd,hk,hpath⟩
    obtain ⟨d',hd',hk',hpath'⟩ := hg.devices hd hk
    exact h.clear ⟨l'',x,d',hg.at_before h.inv hx hd',hd',hk',hpath'.trans hpath⟩
  refine ⟨⟨inv',?_,hplace,⟨children',hq₁⟩,habsent,by rw [hdisk]; exact h.blocked,hclear,?_⟩,
    hg.at hat,hr⟩
  · rw [rootOf,inv'.managed,← h.inv.managed]
    exact h.rooted
  · by_contra hne
    obtain ⟨x,hx⟩ := Option.ne_none_iff_exists'.mp hne
    obtain ⟨d,hd,hpath,-⟩ := inv'.cached path x hx
    rcases hcached with hsame | ⟨p,c,hc,hins⟩
    · rw [hsame,h.uncached] at hx
      cases hx
    · rw [hins] at hx
      rcases inserted_cases hx with ⟨-,rfl⟩ | ⟨-,hold⟩
      · exact path_ne_of_absent inv' hp hplace habsent hclear
          ((hg.at hat).child (hr.trans hc)) hd hpath
      · rw [h.uncached] at hold
        cases hold

theorem Missing.walkPath_kept {names : List Str} {r : ℕ} (hat : At top s [] r)
    (hnames : ∀ name ∈ names, ValidName name) :
    Holds (walkPath lw r names) s (fun _ s' => Missing dev top lw path l a q dq s')
      fun _ _ => True := by
  refine walkPath_rule lw (I := fun l' q' t => At top t l' q' ∧ Missing dev top lw path l a q dq t)
    (fun h => ⟨h.2.inv,h.1⟩) (fun h => h.2) ?_ ?_ names [] r s rfl ⟨hat,h⟩
  · rintro l' q' t name next dn - ⟨-,ht⟩ hnext hdn
    have hne := path_ne_of_absent ht.inv hp ht.place ht.absent ht.clear hnext hdn
    refine ⟨hnext,ht.inv.learn hnext hdn,ht.rooted,ht.place,ht.directory,ht.absent,ht.blocked,
      ht.clear,?_⟩
    exact (AList.lookup_insert_ne hne.symm).trans ht.uncached
  · rintro l' q' t name hpre ⟨hatt,ht⟩ hnone
    refine (ht.lookUp_kept hlw hnamed hp hatt (hnames name (hpre.subset (by simp))) hnone).imp ?_
    rintro found t₁ ⟨ht₁,hat₁,hfound⟩
    exact ⟨fun _ => ht₁,fun c hc => ⟨hat₁.child (hfound.trans hc),ht₁⟩⟩

theorem Missing.pathToDentry_kept (p : Str) : Holds (pathToDentry lw p) s
    (fun _ s' => Missing dev top lw path l a q dq s') fun _ _ => True := by
  refine holds_get ?_
  cases hcache : s.cache.lookup p with
  | some found => exact holds_pure h
  | none =>
    have hroot : Holds (rootDentry : Fs δ ℕ) s (fun r s' => s = s' ∧ rootOf s = some r)
        fun _ _ => True :=
      rootDentry_panics.orAny
    refine hroot.bind ?_
    rintro r _ ⟨rfl,hr⟩
    exact Missing.walkPath_kept hlw hnamed hp h ⟨r,h.rooted.symm.trans hr,.root⟩ fun name hname =>
      validName_of_mem_components hname

end

theorem shadow_found (lw : Lwext4 δ) (inv : TreeInv dev top s) (hrooted : rootOf s = top.root)
    (h : Shadowed top s path) : ∃ p x t, pathToDentry lw p s = .ok (some x) t ∧
      t.cache.lookup path = some x := by
  obtain ⟨l,x,d,hat,hd,hk,rfl⟩ := h
  obtain rfl | ⟨l,a,rfl⟩ := List.eq_nil_or_concat' l
  · obtain ⟨r,hr,hl⟩ := hat
    obtain ⟨d',hd',hk',-⟩ := inv.root r hr
    cases hl.unique .root
    cases hd.symm.trans hd'
    exact (hk' hk).elim
  · have hcomp : components ('/' :: absolute (l ++ [a])) = l ++ [a] := by
      have happend := components_append [] (absolute (l ++ [a]))
      rwa [components_nil,components_absolute (inv.validNames_of_at hat)] at happend
    have hcache : s.cache.lookup ('/' :: absolute (l ++ [a])) = none := by
      by_contra hne
      obtain ⟨y,hy⟩ := Option.ne_none_iff_exists'.mp hne
      have hnormal := normal_of_cached inv hy
      rw [hcomp] at hnormal
      exact List.cons_ne_self _ _ hnormal
    obtain ⟨n,hn,hedge⟩ := hat.of_append
    obtain ⟨dn,_,hdn,-⟩ := inv.edge n a x hedge
    obtain ⟨cache,hlook⟩ := pathToDentry_through lw inv hrooted hn hcomp hcache
    have hdn' : dentry n { s with cache := cache } = .ok dn { s with cache := cache } :=
      dentry_eq hdn
    have hdx : dentry x { s with cache := cache } = .ok d { s with cache := cache } := dentry_eq hd
    refine ⟨_,x,{ s with cache := cache.insert d.dPath x },hlook.trans ?_,AList.lookup_insert _⟩
    rw [walkPath,bind_ok hdn',← childOf_eq hdn,hedge]
    dsimp only
    rw [bind_ok hdx]
    rfl

end Missing

section Resolution

/-- After the call the path resolves to nothing, whatever is looked up in between, and every other
path to an entry of the tree resolves to it as before. -/
structure StaysUnlinked (lw : Lwext4 δ) (path : Str) (c : ℕ) (before after : Vfs δ) : Prop where
  gone : ∀ s, Runs (fun p (_ : Unit) => do let _ ← pathToDentry lw p)
    (fun _ _ _ => True) () after () s → ∃ t, pathToDentry lw path s = .ok none t
  others : ∀ p e de, At (looseTop before) before (components p) e → before.dentries e = some de →
    (∀ x, before.cache.lookup p = some x → x = e) → e ≠ c →
    ∃ t de', pathToDentry lw p after = .ok (some e) t ∧ t.dentries e = some de' ∧
      de'.dInode = de.dInode

theorem withDentry_dentries (s : Vfs δ) (id : ℕ) (f : Dentry → Dentry) (n : ℕ) :
    (s.withDentry id f).dentries n = (s.dentries n).map fun d => if n = id then f d else d := by
  by_cases hn : n = id
  · subst hn
    simp [Vfs.withDentry]
  · simp [Vfs.withDentry,hn]

theorem unlinked_dentries (s : Vfs δ) (q c : ℕ) (d : Dentry) (n : ℕ) :
    (unlinked s q c d).dentries n = ((s.dentries n).map fun e =>
      if n = c then { e with dParent := none } else e).map fun e =>
      if n = q then { e with dChild := e.dChild.erase d.dName } else e :=
  (withDentry_dentries _ _ _ _).trans (congrArg _ (withDentry_dentries s c _ n))

theorem childOf_unlinked (s : Vfs δ) (q c : ℕ) (d : Dentry) (n : ℕ) (a : Str) :
    childOf (unlinked s q c d) n a = if n = q ∧ a = d.dName then none else childOf s n a := by
  unfold childOf
  rw [unlinked_dentries]
  cases s.dentries n with
  | none => simp
  | some e =>
    have hchild : (if n = c then { e with dParent := none } else e).dChild = e.dChild := by
      split <;> rfl
    by_cases hn : n = q
    · subst hn
      simp only [Option.map_some,Option.bind_some,if_true,hchild,lookup_erased,true_and]
    · simp only [Option.map_some,Option.bind_some,hchild,hn,false_and,if_false]

section

variable (h : RegularAt dev s₁ path c d i)
include h

/-- Under a recorded name that is not its key the entry stays in its directory. -/
theorem unlinked_stays (lw : Lwext4 δ) (hq : d.dParent = some q) (hname : d.dName ≠ dentryName path)
    (hsame : SameTree (unlinked s₁ q c d) s₃) :
      ∃ e t, pathToDentry lw path s₃ = .ok (some e) t := by
  cases hcache : s₃.cache.lookup path with
  | some e => exact ⟨e,s₃,pathToDentry_cached lw hcache⟩
  | none =>
    obtain ⟨l,hp,⟨r,hr,hl⟩,hedge⟩ := h.split hq
    have hne := h.apart hq
    obtain ⟨dq,_,hdq,_,hk,-⟩ := h.inv.edge _ _ _ hedge
    obtain ⟨dr,hdr,-⟩ := h.inv.root r hr
    have hchild : ∀ n b, childOf s₃ n b =
        if n = q ∧ b = d.dName then none else childOf s₁ n b := fun n b => by
      rw [hsame.childOf_eq,childOf_unlinked]
    have hentry : ∀ n, (∃ e, s₁.dentries n = some e) → ∃ e, s₃.dentries n = some e := by
      rintro n ⟨e,he⟩
      rw [hsame.1,unlinked_dentries,he]
      exact ⟨_,rfl⟩
    have hkept : Linked (childOf s₃) r l q := by
      refine hl.without_edges (q := q) (fun l' hl' => ?_) fun n b e he hn => ?_
      · rw [← h.inv.components_of_at ⟨r,hr,hl⟩ hdq hk,
          ← h.inv.components_of_at ⟨r,hr,hl'⟩ hdq hk]
      · rw [hchild,if_neg fun hcon => hn hcon.1,he]
    have hlast : childOf s₃ q (dentryName path) = some c := by
      rw [hchild,if_neg fun hcon => hname hcon.2.symm,hedge]
    have hr₃ : rootOf s₃ = some r := by
      rw [rootOf,hsame.2.2.2]
      exact hr
    have hex : ∀ n b e, childOf s₃ n b = some e → ∃ de, s₃.dentries e = some de := by
      intro n b e he
      rw [hchild] at he
      split at he
      · cases he
      · obtain ⟨_,de,_,hde,_⟩ := h.inv.edge _ _ _ he
        exact hentry e ⟨de,hde⟩
    obtain ⟨cache,hlook⟩ := pathToDentry_along lw hr₃ (hentry r ⟨dr,hdr⟩) hex
      (hkept.step hlast).walk_eq (hp.trans (List.append_nil _).symm) hcache
    exact ⟨c,_,hlook⟩

theorem unlinked_detached (hq : d.dParent = some q) (hname : d.dName = dentryName path)
    (hdq : s₁.dentries q = some dq) (hsame : SameTree (unlinked s₁ q c d) s₃) :
    Detaching s₁ q d.dName c dq d d.dPath s₃ := by
  obtain ⟨_,-,-,hedge⟩ := h.split hq
  have hd := unlinked_detaching (hname ▸ hedge) hdq h.entry (h.apart hq)
  refine ⟨hd.edge,hd.parentBefore,hd.childBefore,?_,?_,fun id hid hidc => ?_,hd.keyed,
    fun p => ?_,hsame.2.2.2.trans hd.manager,hsame.2.1.trans hd.next⟩
  · rw [hsame.1]
    exact hd.parent
  · rw [hsame.1]
    exact hd.child
  · rw [hsame.1]
    exact hd.others id hid hidc
  · rw [hsame.2.2.1]
    exact hd.cache p

variable (hd : Detaching s₁ q d.dName c dq d d.dPath s₃)
include hd

theorem unlinked_inv : TreeInv dev (looseTop s₁) s₃ ∧ rootOf s₃ = (looseTop s₁).root :=
  ⟨hd.treeInv h.leaf (fun hk => (h.ordinary hk).elim) h.inv,by rw [rootOf,hd.manager]; rfl⟩

theorem unlinked_others {p : Str} {e : ℕ} {de : Dentry}
    (hat : At (looseTop s₁) s₁ (components p) e) (he : s₁.dentries e = some de)
    (hcache : ∀ x, s₁.cache.lookup p = some x → x = e) (hne : e ≠ c) :
    ∃ t de', pathToDentry lw p s₃ = .ok (some e) t ∧ t.dentries e = some de' ∧
      de'.dInode = de.dInode := by
  obtain ⟨inv₃,hrooted⟩ := unlinked_inv h hd
  obtain ⟨cache,hfound⟩ := pathToDentry_found lw inv₃ hrooted
    (hd.at_kept h.leaf hat hne) fun x hx => by
    rw [hd.cache] at hx
    split at hx
    · cases hx
    · exact hcache x hx
  obtain ⟨children,hkept⟩ := hd.kept he hne
  exact ⟨_,_,hfound,hkept,rfl⟩

theorem unlinked_free : childOf s₃ q d.dName = none ∧ s₃.cache.lookup path = none := by
  refine ⟨by rw [hd.childOf_eq h.leaf,if_pos ⟨rfl,rfl⟩],?_⟩
  rw [hd.cache]
  split_ifs with hne
  · rfl
  · by_contra hsome
    obtain ⟨x,hx⟩ := Option.ne_none_iff_exists'.mp hsome
    refine hne ((normal_of_cached h.inv hx).trans ?_)
    exact (h.inv.path_of_at h.place h.entry h.ordinary).symm

theorem shadowed_unlinked : Shadowed (looseTop s₁) s₃ path ↔ Shadowed (looseTop s₁) s₁ path := by
  constructor
  · rintro ⟨l,x,dx,⟨r,hr,hl⟩,hdx,hk,hpath⟩
    obtain ⟨dx',hdx',hk',hpath'⟩ := hd.before hdx
    refine ⟨l,x,dx',⟨r,hr,hl.mono fun n b e he => ?_⟩,hdx',hk' ▸ hk,hpath' ▸ hpath⟩
    rw [hd.childOf_eq h.leaf] at he
    split at he
    · cases he
    · exact he
  · rintro ⟨l,x,dx,hat,hdx,hk,hpath⟩
    have hne : x ≠ c := by
      rintro rfl
      cases h.entry.symm.trans hdx
      exact h.ordinary hk
    obtain ⟨children,hkept⟩ := hd.kept hdx hne
    exact ⟨l,x,_,hd.at_kept h.leaf hat hne,hkept,hk,hpath⟩

theorem unlink_missing (hl : At (looseTop s₁) s₁ l q)
    (hblocked : dq.kind ≠ .ext4 ∨ loadable lw s₃.disk d.dPath = false)
    (hclear : ¬ Shadowed (looseTop s₁) s₁ path) :
    Missing dev (looseTop s₁) lw path l d.dName q dq s₃ := by
  obtain ⟨inv₃,hrooted⟩ := unlinked_inv h hd
  obtain ⟨hnone,hcache⟩ := unlinked_free h hd
  obtain ⟨dq',d',hdq',hd',-,-,-,-,-,hjoin⟩ := h.inv.edge _ _ _ hd.edge
  cases hd.parentBefore.symm.trans hdq'
  cases h.entry.symm.trans hd'
  refine ⟨inv₃,hrooted,hd.at_kept h.leaf hl (hd.apart h.leaf).symm,⟨_,hd.parent⟩,hnone,?_,
    (shadowed_unlinked h hd).not.mpr hclear,hcache⟩
  rw [← hjoin h.ordinary]
  exact hblocked

theorem unlinked_loads (hlw : Exact lw) (hp : components path = l ++ [d.dName])
    (hl : At (looseTop s₁) s₁ l q) (hext4 : dq.kind = .ext4)
    (hload : loadable lw s₃.disk d.dPath ≠ false) :
    ∃ e t, pathToDentry lw path s₃ = .ok (some e) t := by
  obtain ⟨inv₃,hrooted⟩ := unlinked_inv h hd
  have hat₃ := hd.at_kept h.leaf hl (hd.apart h.leaf).symm
  obtain ⟨hnone,hcache⟩ := unlinked_free h hd
  obtain ⟨dq',d',hdq',hd',-,-,-,-,-,hjoin⟩ := h.inv.edge _ _ _ hd.edge
  cases hd.parentBefore.symm.trans hdq'
  cases h.entry.symm.trans hd'
  obtain ⟨r,t,hlook,hsome⟩ := pathToDentry_loads hlw inv₃ hrooted hat₃ hp hd.parent hnone hcache
  obtain ⟨e,rfl⟩ := Option.isSome_iff_exists.mp (hsome.mpr ⟨hext4,by
    rw [← hjoin h.ordinary]
    exact eq_true_of_ne_false hload⟩)
  exact ⟨e,t,hlook⟩

end

theorem unlinked_stays_iff (hlw : Exact lw) (h : RegularAt dev s₁ path c d i)
    (hq : d.dParent = some q) (hdq : s₁.dentries q = some dq)
    (hsame : SameTree (unlinked s₁ q c d) s₃) :
    StaysUnlinked lw path c s₁ s₃ ↔ d.dName = dentryName path ∧ ¬ Shadowed (looseTop s₁) s₁ path ∧
      (dq.kind ≠ .ext4 ∨ loadable lw s₃.disk d.dPath = false) := by
  obtain ⟨l,hp,hl,-⟩ := h.split hq
  constructor
  · intro hstays
    obtain ⟨t,ht⟩ := hstays.gone s₃ .refl
    have hresolves : ¬ ∃ e t, pathToDentry lw path s₃ = .ok (some e) t := by
      rintro ⟨e,t',he⟩
      cases ht.symm.trans he
    have hname : d.dName = dentryName path := by
      by_contra hne
      exact hresolves (unlinked_stays h lw hq hne hsame)
    have hd := unlinked_detached h hq hname hdq hsame
    obtain ⟨inv₃,hrooted⟩ := unlinked_inv h hd
    refine ⟨hname,fun hshadow => ?_,?_⟩
    · obtain ⟨p,x,t',hlook,hcached⟩ :=
        shadow_found lw inv₃ hrooted ((shadowed_unlinked h hd).mpr hshadow)
      obtain ⟨t'',ht''⟩ := hstays.gone t' (.next (i := p) .refl trivial (bind_ok hlook))
      rw [pathToDentry_cached lw hcached] at ht''
      cases ht''
    · by_contra hcond
      rw [not_or,not_not] at hcond
      exact hresolves (unlinked_loads h hd hlw (hname ▸ hp) hl hcond.1 hcond.2)
  · rintro ⟨hname,hclear,hblocked⟩
    have hd := unlinked_detached h hq hname hdq hsame
    rw [← hname] at hp
    refine ⟨fun t run => ?_,fun p e de => unlinked_others h hd⟩
    have hmissing : Missing dev (looseTop s₁) lw path l d.dName q dq t := by
      refine run.invariant (fun _ t => Missing dev (looseTop s₁) lw path l d.dName q dq t)
        (fun p _ t hm _ => ?_) (unlink_missing h hd hl hblocked hclear)
      exact (hm.pathToDentry_kept hlw not_false hp p).bind fun _ _ hm' => holds_pure hm'
    exact hmissing.unresolved hlw hp

/-- A disk with the one file `/f`, mounted. -/
def mountOneFile : Fs ListDisk Unit := mount listDisk 2 ['/'] true .EXT4

def oneFile : Vfs ListDisk := Vfs.cold [(['/', 'f'], .regFile)]

def FileShape (s : Vfs ListDisk) : Prop :=
  rootOf s = some 0 ∧ walk (childOf s) 0 [['f']] = some 1 ∧
  (s.dentries 1).map (fun d => (d.kind, d.dInode, d.dParent, d.dChild.entries.isEmpty)) =
    some (.ext4, 1, some 0, true) ∧
  s.inodes 1 = some ⟨.Regular, 1, 0⟩ ∧ (s.dentries 0).isSome

instance decidableFileShape (s : Vfs ListDisk) : Decidable (FileShape s) :=
  inferInstanceAs (Decidable (_ ∧ _ ∧ _ ∧ _ ∧ _))

theorem FileShape.regularAt {s : Vfs ListDisk} (h : FileShape s) (inv : Stands False s) :
    ∃ d dq, RegularAt False s ['/', 'f'] 1 d ⟨.Regular, 1, 0⟩ ∧ d.dParent = some 0 ∧
      s.dentries 0 = some dq ∧ d.dName = ['f'] := by
  obtain ⟨hroot,hwalk,hmap,hi,hzero⟩ := h
  obtain ⟨d,hd,hshape⟩ := Option.map_eq_some_iff.mp hmap
  simp only [Prod.mk.injEq] at hshape
  obtain ⟨hkind,hinode,hparent,hempty⟩ := hshape
  obtain ⟨dq,hdq⟩ := Option.isSome_iff_exists.mp hzero
  have hedge : childOf s 0 ['f'] = some 1 := by
    obtain ⟨q,hq,hlast⟩ := (linked_of_walk hwalk).of_append (l := [])
    cases hq.unique .root
    exact hlast
  obtain ⟨_,d',_,hd',_,_,hname,_⟩ := inv.edge _ _ _ hedge
  cases hd.symm.trans hd'
  refine ⟨d,dq,⟨loose_of_stands inv,⟨0,hroot,?_⟩,hd,hkind,by rw [hinode,hi],rfl,fun name => ?_⟩,
    hparent,hdq,hname trivial⟩
  · rw [show components ['/','f'] = [['f']] by decide]
    exact linked_of_walk hwalk
  · rw [childOf_eq hd]
    simp [AList.lookup,List.isEmpty_iff.mp hempty]

end Resolution

end DuckOs.UnlinkedPaths
