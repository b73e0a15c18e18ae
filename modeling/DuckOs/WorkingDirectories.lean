import DuckOs.FileCreation

namespace DuckOs.WorkingDirectories
open ExecutionRules PathModel VfsModel VfsTrees VfsLookups LookupEffects FileCreation

variable {name path cwd : Str} {l : List Str} {top : TreeTop} {δ : Type} {dev : Prop} {s : Vfs δ}

/-- A component that is neither empty nor a dot or two. -/
structure Proper (name : Str) : Prop where
  valid : ValidName name
  noDot : name ≠ ['.']
  noDots : name ≠ ['.', '.']

/-- The slash, or proper names behind single slashes. -/
def Canonical (path : Str) : Prop :=
  ∃ l : List Str, (∀ name ∈ l, Proper name) ∧ path = absolute l

def Names (text : Str) : Prop := ∀ piece ∈ text.splitOn '/', Proper piece

theorem not_names_nil : ¬ Names [] := by
  intro h
  exact (h [] (by simp)).valid.nonempty rfl

theorem names_append (p q : Str) : Names (p ++ '/' :: q) ↔ Names p ∧ Names q := by
  unfold Names
  rw [List.splitOn_append_cons_self]
  exact List.forall_mem_append

theorem absolute_cons (name : Str) (l : List Str) :
    absolute (name :: l) = '/' :: ['/'].intercalate (name :: l) := by
  rw [intercalate_names,absolute,if_neg (List.cons_ne_nil _ _),List.flatMap_cons]
  rfl

theorem names_intercalate (h : ∀ n ∈ name :: l, Proper n) :
    Names (['/'].intercalate (name :: l)) := by
  unfold Names
  rw [List.splitOn_intercalate '/' (fun n hn => (h n hn).valid.noSlash) (List.cons_ne_nil _ _)]
  exact h

theorem canonical_slash (rest : Str) : Canonical ('/' :: rest) ↔ rest = [] ∨ Names rest := by
  constructor
  · rintro ⟨l,hl,heq⟩
    cases l with
    | nil => exact .inl (List.cons.inj heq).2
    | cons name l =>
      rw [absolute_cons] at heq
      rw [(List.cons.inj heq).2]
      exact .inr (names_intercalate hl)
  · rintro (rfl | h)
    · exact ⟨[],by simp,rfl⟩
    · refine ⟨rest.splitOn '/',h,?_⟩
      have hback : ['/'].intercalate (rest.splitOn '/') = rest := List.intercalate_splitOn '/'
      cases hsplit : rest.splitOn '/' with
      | nil => exact (List.splitOn_ne_nil _ _ hsplit).elim
      | cons name l => rw [absolute_cons,← hsplit,hback]

theorem Canonical.eq_absolute (h : Canonical path) : path = absolute (components path) := by
  obtain ⟨l,hl,rfl⟩ := h
  rw [components_absolute fun n hn => (hl n hn).valid]

theorem canonical_parent (h : Canonical cwd) : Canonical (parentPath cwd) := by
  obtain ⟨l,hl,rfl⟩ := h
  have hcomp := components_absolute fun n hn => (hl n hn).valid
  by_cases hnil : l = []
  · subst hnil
    exact ⟨[],by simp,rfl⟩
  · refine ⟨l.dropLast,fun n hn => hl n (List.mem_of_mem_dropLast hn),?_⟩
    rw [parentPath_eq (by rwa [hcomp]),hcomp]

theorem canonical_join {dir : Str} (h : Canonical dir) (rest : Str) :
    Canonical ((if dir.getLast? = some '/' then dir else dir ++ ['/']) ++ rest) ↔
      if rest = [] then dir = ['/'] else Names rest := by
  obtain ⟨l,hl,rfl⟩ := h
  cases l with
  | nil =>
    change Canonical ('/' :: rest) ↔ _
    rw [canonical_slash]
    by_cases hrest : rest = []
    · simp [hrest]
    · simp [hrest]
  | cons name l =>
    have hlast := getLast?_absolute (List.cons_ne_nil name l) fun n hn => (hl n hn).valid
    have hne : absolute (name :: l) ≠ ['/'] := by
      intro hc
      rw [hc] at hlast
      exact hlast rfl
    rw [if_neg hlast,List.append_assoc,List.singleton_append,absolute_cons,List.cons_append,
      canonical_slash,names_append,and_iff_right (names_intercalate hl),or_iff_right (by simp),
      ← absolute_cons]
    split_ifs with hrest
    · rw [hrest]
      exact iff_of_false not_names_nil hne
    · exact Iff.rfl

def base (cwd path : Str) : Str := if ['.', '.', '/'] <+: path then parentPath cwd else cwd

/-- The text of the path, without its trailing slashes, tabs and newlines, leads from a canonical
directory to a canonical one. -/
def Tidy (cwd path : Str) : Prop :=
  let path := formatPath path
  if isRelativePath path then
    if formatRelPath path = [] then base cwd path = ['/'] else Names (formatRelPath path)
  else Names path.tail

theorem formatPath_ne_slash (path : Str) : formatPath path ≠ ['/'] := by
  intro h
  have hlast := List.rdropWhile_last_not (fun c => c = '/' || c = '\t' || c = '\n') path
    (by rw [show path.rdropWhile _ = formatPath path from rfl,h]; simp)
  simp only [show path.rdropWhile _ = formatPath path from rfl,h] at hlast
  exact hlast rfl

theorem absolute_of_not_relative (h : isRelativePath path = false) : path = '/' :: path.tail := by
  cases path with
  | nil => simp [isRelativePath] at h
  | cons c rest =>
    have hc : c = '/' := by simpa [isRelativePath] using h
    rw [hc,List.tail_cons]

theorem canonical_chdirPath (h : Canonical cwd) (path : Str) :
    Canonical (chdirPath cwd path) ↔ Tidy cwd path := by
  unfold chdirPath Tidy
  dsimp only
  cases hrel : isRelativePath (formatPath path) with
  | true =>
    have hbase : Canonical (base cwd (formatPath path)) := by
      unfold base
      split
      · exact canonical_parent h
      · exact h
    exact canonical_join hbase _
  | false =>
    have hslash := absolute_of_not_relative hrel
    have hrest : (formatPath path).tail ≠ [] := by
      intro hnil
      rw [hnil] at hslash
      exact formatPath_ne_slash path hslash
    rw [if_neg (by decide),if_neg (by decide)]
    rw [hslash,canonical_slash,List.tail_cons,or_iff_right hrest]

theorem chdirPath_eq_iff (hcwd : Canonical cwd) (habs : isRelativePath path = false)
    (hcanon : Canonical (chdirPath cwd path)) : chdirPath cwd path = absolute (components path) ↔
      components (formatPath path) = components path := by
  have hvalid : ∀ p : Str, ∀ n ∈ components p, ValidName n := fun _ _ => validName_of_mem_components
  have hinj : ∀ p p' : Str, absolute (components p) = absolute (components p') ↔
      components p = components p' := by
    intro p p'
    refine ⟨fun h => ?_,fun h => by rw [h]⟩
    have hcomp := congrArg components h
    rwa [components_absolute (hvalid p),components_absolute (hvalid p')] at hcomp
  cases hrel : isRelativePath (formatPath path) with
  | false =>
    have hq : chdirPath cwd path = formatPath path := by
      unfold chdirPath
      dsimp only
      rw [hrel]
      rfl
    rw [hq] at hcanon ⊢
    rw [← hinj,← hcanon.eq_absolute]
  | true =>
    have hnil : formatPath path = [] := by
      have hpre : formatPath path <+: path := List.rdropWhile_prefix _ _
      have hslash := absolute_of_not_relative habs
      cases hf : formatPath path with
      | nil => rfl
      | cons c rest =>
        rw [hf,hslash] at hpre
        have hc := (List.cons_prefix_cons.mp hpre).1
        simp [isRelativePath,hf,hc] at hrel
    have htidy := (canonical_chdirPath hcwd path).mp hcanon
    have hroot : cwd = ['/'] := by
      unfold Tidy at htidy
      rw [hnil] at htidy
      exact htidy
    have hq : chdirPath cwd path = absolute (components []) := by
      unfold chdirPath
      rw [hnil,hroot]
      decide
    rw [hq,hnil,hinj]

section Lookups

variable {s' s₁ : Vfs δ} (lw : Lwext4 δ)

/-- A root is mounted, and the files of the kernel are no directories. -/
structure Ready (dev : Prop) (s : Vfs δ) : Prop where
  usable : Usable dev s
  files : ∀ id d i, s.dentries id = some d → d.kind = .device → s.inodes d.dInode = some i →
    i.iMode ≠ .Directory
  rooted : ∃ r, rootOf s = some r

def DirAt (s : Vfs δ) (l : List Str) : Prop := ∃ c, At (looseTop s) s l c ∧ IsDirectory s c

def InodesKept (s s' : Vfs δ) : Prop :=
  s.nextInode ≤ s'.nextInode ∧ ∀ ino, ino < s.nextInode → s'.inodes ino = s.inodes ino

theorem inodesKept_kept (top : TreeTop) (s₀ : Vfs δ) : Kept dev top (InodesKept s₀) := by
  refine ⟨fun _ h => h,fun _ _ h => h,?_⟩
  intro s q dq l name mode _ _ _ _ _ _ _ h
  refine ⟨Nat.le_succ_of_le h.1,fun ino hino => ?_⟩
  exact (Function.update_of_ne (hino.trans_le h.1).ne _ _).trans (h.2 ino hino)

theorem InodesKept.isDirectory {P : List Str → Str → Prop} {c : ℕ} (h : InodesKept s s')
    (hg : Grows top P s s') (inodes : HasInodes s) (hdir : IsDirectory s c) : IsDirectory s' c := by
  obtain ⟨d,i,hd,hi,hmode⟩ := hdir
  obtain ⟨children,hkept⟩ := hg.kept c d hd
  exact ⟨_,i,hkept,(h.2 _ (inodes c d hd).1).trans hi,hmode⟩

theorem lookUp_returns {q : ℕ} (inv : TreeInv dev top s) (hat : At top s l q)
    (hname : ValidName name) : Holds (lookUp lw q name) s (fun _ _ => True) (Never _ _) := by
  obtain ⟨dq,hq⟩ := inv.exists_of_at hat
  refine holds_bind_ok (dentry_eq hq) ?_
  cases dq.kind with
  | device => trivial
  | simple => trivial
  | ext4 =>
    cases dq.dChild.lookup name with
    | some c => trivial
    | none =>
      refine holds_bind_ok (cwdAndName_eq hname dq.dPath) ?_
      refine (loadInode_holds lw _).bind ?_
      rintro found s₁ -
      cases found with
      | none => trivial
      | some inode => trivial

theorem walkPath_returns (hnamed : ¬ top.named) {q : ℕ} {names : List Str} (inv : TreeInv dev top s)
    (hat : At top s [] q) (hnames : ∀ name ∈ names, ValidName name) :
    Holds (walkPath lw q names) s (fun _ _ => True) (Never _ _) := by
  refine walkPath_rule lw (I := fun l q t => TreeInv dev top t ∧ At top t l q) id
    (fun _ => trivial) ?_ ?_ names [] q s rfl ⟨inv,hat⟩
  · rintro l q t name next d - ⟨invt,-⟩ hnext hd
    exact ⟨invt.learn hnext hd,hnext⟩
  · rintro l q t name hpre ⟨invt,hatt⟩ -
    have hname := hnames name (hpre.subset (by simp))
    obtain ⟨found,t₁,hrun,-⟩ := (lookUp_returns lw invt hatt hname).returns
    obtain ⟨⟨inv₁,hg,hfound⟩,-⟩ := (lookUp_keeps (P := fun _ _ => True) lw kept_true invt hatt
      hname (fun hn => (hnamed hn).elim) trivial trivial).of_ok hrun
    exact holds_ok hrun ⟨fun _ => trivial,
      fun c hc => ⟨inv₁,(hg.at hatt).child (hfound.trans hc)⟩⟩

theorem pathToDentry_returns (ready : Ready dev s) (path : Str) :
    Holds (pathToDentry lw path) s (fun _ _ => True) (Never _ _) := by
  obtain ⟨r,hr⟩ := ready.rooted
  refine holds_get ?_
  cases s.cache.lookup path with
  | some found => trivial
  | none =>
    refine holds_bind_ok (rootDentry_eq hr) ?_
    exact walkPath_returns lw id ready.usable.tree ⟨r,hr,.root⟩ fun _ => validName_of_mem_components

theorem Ready.lookup (ready : Ready dev s) (path : Str) :
    Holds (pathToDentry lw path) s
      (fun found s₁ => Ready dev s₁ ∧ (∀ l, DirAt s l → DirAt s₁ l) ∧
        ∀ c, found = some c → IsDirectory s₁ c → DirAt s₁ (components path)) (Never _ _) := by
  obtain ⟨found,s₁,hrun,-⟩ := (pathToDentry_returns lw ready path).returns
  obtain ⟨hfound,usable₁,htop⟩ := (ready.usable.lookup lw path).of_ok hrun
  have hkept : InodesKept s s₁ := ((pathToDentry_keeps lw (inodesKept_kept _ s) ready.usable.tree
    False.elim ⟨le_rfl,fun _ _ => rfl⟩).of_ok hrun).2
  have hfiles : ∀ id d i, s₁.dentries id = some d → d.kind = .device →
      s₁.inodes d.dInode = some i → i.iMode ≠ .Directory := by
    intro id d i hd hk hi
    obtain ⟨d₀,hd₀,hk₀,-⟩ := hfound.grows.devices hd hk
    obtain ⟨children,hsame⟩ := hfound.grows.kept id d₀ hd₀
    cases hd.symm.trans hsame
    refine ready.files id d₀ i hd₀ hk₀ ?_
    rw [← hkept.2 _ (ready.usable.inodes id d₀ hd₀).1]
    exact hi
  refine holds_ok hrun ⟨⟨usable₁,hfiles,?_⟩,?_,?_⟩
  · rw [hfound.grows.rootOf_eq]
    exact ready.rooted
  · rintro l ⟨c,hat,hdir⟩
    refine ⟨c,?_,hkept.isDirectory hfound.grows ready.usable.inodes hdir⟩
    rw [htop]
    exact hfound.grows.at hat
  · rintro c rfl hdir
    obtain ⟨d,hd,hat⟩ := hfound.entry c rfl
    refine ⟨c,?_,hdir⟩
    rw [htop]
    refine hat fun hk => ?_
    obtain ⟨d',i,hd',hi,hmode⟩ := hdir
    cases hd.symm.trans hd'
    exact hfiles c d i hd hk hi hmode

end Lookups

section Calls

variable (lw : Lwext4 δ)

def AllDirs (s : Vfs δ) (l : List Str) : Prop := ∀ l', l' <+: l → DirAt s l'

/-- The stored directory is canonical and there. -/
def Good (cwd : Str) (s : Vfs δ) : Prop := Canonical cwd ∧ DirAt s (components cwd)

/-- What a call should do: a new directory is good and is the canonical form of an absolute path
of directories; after an error the old one, which stays, is still good. -/
def RightCall (cwd : Str) (s : Vfs δ) (ptr : List UInt8) : Prop :=
  match sysChdir lw cwd ptr s with
  | .ok cwd' s' => Good cwd' s' ∧ (isRelativePath (cPtrToString ptr) = false →
      AllDirs s (components (cPtrToString ptr)) →
      cwd' = absolute (components (cPtrToString ptr)))
  | .error (.errno _) s' => Good cwd s'
  | .error (.panic _) _ => False

def after (cwd : Str) (s : Vfs δ) (ptr : List UInt8) : Str × Vfs δ :=
  match sysChdir lw cwd ptr s with
  | .ok cwd' s' => (cwd', s')
  | .error _ s' => (cwd, s')

def RightAlong : List (List UInt8) → Str → Vfs δ → Prop
  | [], _, _ => True
  | ptr :: ptrs, cwd, s =>
    RightCall lw cwd s ptr ∧ RightAlong ptrs (after lw cwd s ptr).1 (after lw cwd s ptr).2

/-- If the path leads to a directory, its text is tidy, and only slashes were cut off from an
absolute path of directories. -/
def Clean (cwd : Str) (s : Vfs δ) (path : Str) : Prop :=
  DirectoryAt lw s (chdirPath cwd path) → Tidy cwd path ∧
    (isRelativePath path = false → AllDirs s (components path) →
      components (formatPath path) = components path)

def CleanAlong : List (List UInt8) → Str → Vfs δ → Prop
  | [], _, _ => True
  | ptr :: ptrs, cwd, s => Clean lw cwd s (cPtrToString ptr) ∧
      CleanAlong ptrs (after lw cwd s ptr).1 (after lw cwd s ptr).2

inductive Ends (dev : Prop) (cwd : Str) (s : Vfs δ) (ptr : List UInt8) : Prop
  | refused (e : VirtMemoryModel.Errno) (s' : Vfs δ)
    (h : sysChdir lw cwd ptr s = .error (.errno e) s')
    (nowhere : ¬ DirectoryAt lw s (chdirPath cwd (cPtrToString ptr))) (ready : Ready dev s')
    (keeps : ∀ l, DirAt s l → DirAt s' l)
  | changed (s' : Vfs δ) (h : sysChdir lw cwd ptr s = .ok (chdirPath cwd (cPtrToString ptr)) s')
    (leads : DirectoryAt lw s (chdirPath cwd (cPtrToString ptr))) (ready : Ready dev s')
    (dir : DirAt s' (components (chdirPath cwd (cPtrToString ptr))))

theorem Ready.ends (ready : Ready dev s) (cwd : Str) (ptr : List UInt8) :
    Ends lw dev cwd s ptr := by
  obtain ⟨found,s₁,hrun,ready₁,keeps,hdir⟩ :=
    (ready.lookup lw (chdirPath cwd (cPtrToString ptr))).returns
  have hcall : ∀ x : Option ℕ, found = x → sysChdir lw cwd ptr s = (do
      let id ← okOr .ENOENT x
      let d ← dentry id
      let inode ← inodeMeta d.dInode
      if inode.iMode ≠ .Directory then fail .ENOTDIR
      else pure (chdirPath cwd (cPtrToString ptr)) : Fs δ Str) s₁ := by
    rintro x rfl
    exact bind_ok hrun
  cases found with
  | none =>
    refine .refused .ENOENT s₁ (hcall none rfl) ?_ ready₁ keeps
    rintro ⟨e,t,ht,-⟩
    rw [hrun] at ht
    cases ht
  | some c =>
    obtain ⟨hfound,-⟩ := (ready.usable.lookup lw _).of_ok hrun
    obtain ⟨d,hd,-⟩ := hfound.entry c rfl
    obtain ⟨-,i,hi⟩ := ready₁.usable.inodes c d hd
    have hrest := hcall (some c) rfl
    rw [bind_ok (rfl : okOr .ENOENT (some c) s₁ = .ok c s₁),bind_ok (dentry_eq hd),
      bind_ok (inodeMeta_eq hi)] at hrest
    by_cases hmode : i.iMode = .Directory
    · rw [if_neg (not_not.mpr hmode)] at hrest
      have hisdir : IsDirectory s₁ c := ⟨d,i,hd,hi,hmode⟩
      exact .changed s₁ hrest ⟨c,s₁,hrun,hisdir⟩ ready₁ (hdir c rfl hisdir)
    · rw [if_pos hmode] at hrest
      refine .refused .ENOTDIR s₁ hrest ?_ ready₁ keeps
      rintro ⟨e,t,ht,d',i',hd',hi',hmode'⟩
      rw [hrun] at ht
      cases ht
      cases hd.symm.trans hd'
      cases hi.symm.trans hi'
      exact hmode hmode'

theorem rightCall_iff (ready : Ready dev s) (good : Good cwd s) (ptr : List UInt8) :
    RightCall lw cwd s ptr ↔ Clean lw cwd s (cPtrToString ptr) := by
  unfold RightCall Clean
  cases ready.ends lw cwd ptr with
  | refused e s' h nowhere _ keeps =>
    rw [h]
    exact ⟨fun _ hc => (nowhere hc).elim,fun _ => ⟨good.1,keeps _ good.2⟩⟩
  | changed s' h leads _ dir =>
    rw [h]
    have hcanon := canonical_chdirPath good.1 (cPtrToString ptr)
    constructor
    · rintro ⟨hgood,hform⟩ _
      exact ⟨hcanon.mp hgood.1,fun habs hall =>
        (chdirPath_eq_iff good.1 habs hgood.1).mp (hform habs hall)⟩
    · intro hclean
      obtain ⟨htidy,hform⟩ := hclean leads
      exact ⟨⟨hcanon.mpr htidy,dir⟩,fun habs hall =>
        (chdirPath_eq_iff good.1 habs (hcanon.mpr htidy)).mpr (hform habs hall)⟩

theorem after_right (ready : Ready dev s) {ptr : List UInt8} (h : RightCall lw cwd s ptr) :
    Ready dev (after lw cwd s ptr).2 ∧ Good (after lw cwd s ptr).1 (after lw cwd s ptr).2 := by
  unfold RightCall at h
  unfold after
  cases ready.ends lw cwd ptr with
  | refused e s' hrun _ ready' _ =>
    rw [hrun] at h ⊢
    exact ⟨ready',h⟩
  | changed s' hrun _ ready' _ =>
    rw [hrun] at h ⊢
    exact ⟨ready',h.1⟩

end Calls

/-- The root directory and one more in it. -/
def oneDirectory : ListDisk := [(['/', 'a'], .dir)]

def RootAndDirectory (s : Vfs ListDisk) : Prop :=
  rootOf s = some 0 ∧
  (s.dentries 0).map (fun d => (d.dInode, d.dChild.lookup ['a'])) = some (0, some 1) ∧
  s.inodes 0 = some ⟨.Directory, 1, 0⟩

instance decidableRootAndDirectory (s : Vfs ListDisk) : Decidable (RootAndDirectory s) :=
  inferInstanceAs (Decidable (_ ∧ _ ∧ _))

theorem RootAndDirectory.ready {s : Vfs ListDisk} (h : RootAndDirectory s)
    (mounted : mount listDisk 2 ['/'] true .EXT4 (Vfs.cold oneDirectory) = .ok () s) :
    Ready False s := by
  have usable := mounted_usable mounted
  exact ⟨usable,fun id d _ hd hk _ => (usable.tree.devices id d hd hk).elim,0,h.1⟩

theorem RootAndDirectory.good {s : Vfs ListDisk} (h : RootAndDirectory s) : Good ['/'] s := by
  obtain ⟨hroot,hzero,hi⟩ := h
  obtain ⟨d,hd,hmap⟩ := Option.map_eq_some_iff.mp hzero
  have hino : d.dInode = 0 := (Prod.mk.inj hmap).1
  exact ⟨⟨[],by simp,rfl⟩,0,⟨0,hroot,.root⟩,d,_,hd,by rw [hino]; exact hi,rfl⟩

end DuckOs.WorkingDirectories
