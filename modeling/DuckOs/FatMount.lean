import DuckOs.FatDirectories
import DuckOs.FueledTraversals

namespace DuckOs.FatMount
open AddressModel BlockDevices FatLayout FatTable FatDates FatDirectories PathModel
open VfsModel LinkedChains FueledTraversals Relation

section Directories

structure NxtFreePos where
  cluster : ℕ
  sector : ℕ
  offset : ℕ

variable (dev : BlockDevice) (info : FatInfo)

def readDirEntry (sector num : ℕ) : Except Panic DirEntry := do
  let data ← dev.readBlock sector
  if h : num * 32 + 32 ≤ sectorSize then
    pure ⟨(data.val.drop (num * 32)).take 32, by
      rw [List.length_take, List.length_drop, data.property]
      omega⟩
  else .error .assertion

def sectorsOf (cluster : ℕ) : List ℕ :=
  let start := clusterToSector info cluster
  List.range' start (wrappingAdd start info.secPerClus - start)

def slots (clusters : List ℕ) : List (ℕ × ℕ × ℕ) :=
  clusters.flatMap fun cluster => (sectorsOf info cluster).flatMap fun sector =>
    (List.range 16).map fun num => (cluster, sector, num)

def scanEntries : List (ℕ × ℕ × ℕ) → Except Panic (List (DirEntry × Position) × NxtFreePos)
  | [] => .ok ([], ⟨0, 0, 0⟩)
  | (cluster, sector, num) :: rest => do
    let dir ← readDirEntry dev sector num
    match DirEntry.status dir with
    | .empty => pure ([], ⟨cluster, sector, num * 32⟩)
    | .free => scanEntries rest
    | _ => do
      let (dirPos, free) ← scanEntries rest
      pure ((dir, ⟨cluster, sector, num * 32, 0⟩) :: dirPos, free)

def addChild (cwd : Str) (children : StrMap FatDentry) (child : FatDentry) :
    Except Stop (StrMap FatDentry) :=
  if '/' ∈ child.dName then .error (.panic .explicit)
  else .ok (children.insert child.dName { child with dPath := joinName child.dName cwd })

def sortedChildren (children : StrMap FatDentry) : List FatDentry :=
  ((children.entries.map fun e => (e.1, e.2)).insertionSort fun a b => a.1 ≤ b.1).map Prod.snd

def loadChild (dentry : FatDentry) : Except Stop (NxtFreePos × List FatDentry) := do
  let clusters ← findAllCluster dev info dentry.inode.pos.dataCluster
  let (dirPos, free) ← (scanEntries dev (slots info clusters)).mapError .panic
  let childs ← parseChild dev info dirPos
  let children ← childs.foldlM (addChild dentry.dPath) ∅
  pure (free, sortedChildren children)

def loadLevel (dentry : FatDentry) : Except Stop (Option NxtFreePos × List FatDentry) :=
  if dentry.inode.mode = .Directory then do
    let (free, children) ← loadChild dev info dentry
    pure (some free, children)
  else pure (none, [])

def loadAllChild (fuel : ℕ) (dentry : FatDentry) :
    Except Stop (Tree FatDentry (Option NxtFreePos)) :=
  traverse (loadLevel dev info) .endless fuel dentry

end Directories

structure FSInfo where
  leadSig : ℕ
  strucSig : ℕ
  freeCount : ℕ
  nxtFree : ℕ
  trailSig : ℕ

def FSInfo.init (dev : BlockDevice) (sectorId : ℕ) : Except Panic FSInfo := do
  let data ← readAt dev sectorId 0 sectorSize
  pure ⟨field data 0 4, field data 484 4, field data 488 4, field data 492 4, field data 508 4⟩

def rootClusterNum : ℕ := 2

def rootPosition : Position := ⟨0, 0, 0, rootClusterNum⟩

/-- `now` is the time of the mount. -/
def rootDentry (mountPoint : Str) (now : TimeSpec) (file : FatDiskFile) : FatDentry where
  dName := mountPoint
  dPath := mountPoint
  inode := ⟨.Directory, file.size, (now, now, now), rootPosition, file⟩

structure Fat32FileSystem where
  fsInfo : FSInfo
  root : Tree FatDentry (Option NxtFreePos)

/-- `Fat32FileSystem::new` with a bound on the depth of the directories. -/
def Fat32FileSystem.new (fuel : ℕ) (mountPoint : Str) (now : TimeSpec) (dev : BlockDevice) :
    Except Stop Fat32FileSystem := do
  let boot ← (dev.readBlock 0).mapError .panic
  let bpb := loadBpb boot
  if h : bpb.isValid then
    let fsInfo ← (FSInfo.init dev bpb.fsInfo.toNat).mapError .panic
    let info := FatInfo.init bpb h
    let file ← FatDiskFile.init dev info rootClusterNum
    let root ← loadAllChild dev info fuel (rootDentry mountPoint now file)
    pure ⟨fsInfo, root⟩
  else .error (.panic .explicit)

section Chains

variable {dev : BlockDevice} {info : FatInfo} {c : ℕ}

/-- The entry of `c` in the table is the number of the cluster `d`. -/
def LinksTo (dev : BlockDevice) (info : FatInfo) (c d : ℕ) : Prop :=
  entryAt dev info c = some d ∧ 2 ≤ d ∧ d ≤ maxCluster

/-- No cluster of the chain is met again. -/
def NoCycle (dev : BlockDevice) (info : FatInfo) (c : ℕ) : Prop :=
  NoRepeat id (LinksTo dev info) c

theorem linksTo_iff {d : ℕ} : nextOf dev info c = .ok (some d) ↔ LinksTo dev info c d := by
  rw [nextOf_eq]
  refine ⟨links_some,fun ⟨hentry,hrange⟩ => ?_⟩
  have hmarks : ¬ (d = 0x0FFF_FFFF ∨ d = 0x0FFF_FFF8) := by
    unfold maxCluster at hrange
    omega
  simp only [links,hentry,Option.elim_some,nextCluster,status]
  rw [if_neg (by omega),if_neg hmarks,if_pos hrange]

theorem acc_iff_noCycle :
    Acc (fun d c => nextOf dev info c = .ok (some d)) c ↔ NoCycle dev info c := by
  simp only [linksTo_iff]
  exact ⟨noRepeat_of_acc fun {a a' b} h (hkey : a = a') => ⟨b,hkey ▸ h,rfl⟩,
    acc_of_noRepeat fun h => (Finset.mem_Icc.mpr h.2 : _ ∈ Finset.Icc 2 maxCluster)⟩

theorem findAllCluster_endless_iff :
    findAllCluster dev info c = .error .endless ↔ ¬ NoCycle dev info c := by
  rw [← acc_iff_noCycle,← exists_follow_iff_acc]
  unfold findAllCluster
  cases hr : follow (nextOf dev info) maxCluster c with
  | none =>
    refine iff_of_true rfl ?_
    rintro ⟨n,r,h⟩
    rw [nextOf_eq] at h hr
    rw [follow_maxCluster h] at hr
    cases hr
  | some r =>
    refine iff_of_false ?_ (fun h => h ⟨_,_,hr⟩)
    cases r with
    | error reason => nofun
    | ok clusters => nofun

theorem init_endless_iff {dataCluster : ℕ} :
    FatDiskFile.init dev info dataCluster = .error .endless ↔
      dataCluster ≠ 0 ∧ ¬ NoCycle dev info dataCluster := by
  rw [← findAllCluster_endless_iff]
  unfold FatDiskFile.init
  by_cases hzero : dataCluster = 0
  · rw [if_pos hzero]
    exact iff_of_false nofun fun h => h.1 hzero
  · rw [if_neg hzero]
    refine bind_eq_error_iff.trans ⟨?_,fun h => .inl h.2⟩
    rintro (h | ⟨clusters,-,h⟩)
    · exact ⟨hzero,h⟩
    · cases h

end Chains

section Levels

variable (dev : BlockDevice) (info : FatInfo)

/-- The chains that are followed when a directory is loaded: its own, and that of every entry that
is reached. -/
def Follows (dentry : FatDentry) (c : ℕ) : Prop :=
  c = dentry.inode.pos.dataCluster ∨
    ∃ clusters dirPos free before group after header,
      findAllCluster dev info dentry.inode.pos.dataCluster = .ok clusters ∧
      scanEntries dev (slots info clusters) = .ok (dirPos, free) ∧
      groups [] dirPos = before ++ group :: after ∧
      (∀ g ∈ before, ∃ child, parseName dev info g = .ok child) ∧
      group.header = .ok header ∧ header.pos.dataCluster = c ∧ c ≠ 0

/-- What is at a place in the tree of directories: a directory or a file, and its first cluster. -/
def place (dentry : FatDentry) : Bool × ℕ :=
  (decide (dentry.inode.mode = .Directory), dentry.inode.pos.dataCluster)

/-- No chain that is followed runs into a cycle, and no directory that is visited is below
itself. -/
structure Acyclic (root : FatDentry) : Prop where
  chains : ∀ dentry, ReflTransGen (Visits (loadLevel dev info)) root dentry →
    dentry.inode.mode = .Directory → ∀ c, Follows dev info dentry c → NoCycle dev info c
  directories : NoRepeat place (Visits (loadLevel dev info)) root

variable {dev info} {dentry : FatDentry}

theorem parseName_endless_iff {group : Group} :
    parseName dev info group = .error .endless ↔
      ∃ header, group.header = .ok header ∧ header.pos.dataCluster ≠ 0 ∧
        ¬ NoCycle dev info header.pos.dataCluster := by
  unfold parseName
  simp only [bind_eq_error_iff,mapError_eq_error_iff,mapError_eq_ok_iff,init_endless_iff]
  constructor
  · rintro (⟨_,-,h⟩ | ⟨header,hheader,hends | ⟨_,-,h⟩⟩)
    · cases h
    · exact ⟨header,hheader,hends⟩
    · cases h
  · rintro ⟨header,hheader,hends⟩
    exact .inr ⟨header,hheader,.inl hends⟩

theorem addChild_ne_endless (cwd : Str) (childs : List FatDentry) (children : StrMap FatDentry) :
    childs.foldlM (addChild cwd) children ≠ .error .endless := by
  induction childs generalizing children with
  | nil => nofun
  | cons child childs ih =>
    rw [List.foldlM_cons]
    unfold addChild
    split
    · nofun
    · exact ih _

theorem loadChild_endless_iff : loadChild dev info dentry = .error .endless ↔
    findAllCluster dev info dentry.inode.pos.dataCluster = .error .endless ∨
    ∃ clusters dirPos free,
      findAllCluster dev info dentry.inode.pos.dataCluster = .ok clusters ∧
      scanEntries dev (slots info clusters) = .ok (dirPos, free) ∧
      parseChild dev info dirPos = .error .endless := by
  unfold loadChild
  simp only [bind_eq_error_iff,mapError_eq_error_iff,mapError_eq_ok_iff]
  constructor
  · rintro (h | ⟨clusters,hfind,⟨_,-,h⟩ | ⟨⟨dirPos,free⟩,hscan,hparse | ⟨childs,-,h⟩⟩⟩)
    · exact .inl h
    · cases h
    · exact .inr ⟨clusters,dirPos,free,hfind,hscan,hparse⟩
    · rcases h with h | ⟨children,-,h⟩
      · exact absurd h (addChild_ne_endless _ _ _)
      · cases h
  · rintro (h | ⟨clusters,dirPos,free,hfind,hscan,hparse⟩)
    · exact .inl h
    · exact .inr ⟨clusters,hfind,.inr ⟨(dirPos, free),hscan,.inl hparse⟩⟩

theorem loadChild_ne_endless_iff : loadChild dev info dentry ≠ .error .endless ↔
    ∀ c, Follows dev info dentry c → NoCycle dev info c := by
  rw [ne_eq,loadChild_endless_iff]
  constructor
  · rintro hne c (rfl | ⟨clusters,dirPos,free,before,group,after,header,hfind,hscan,hsplit,
      hbefore,hheader,rfl,hzero⟩)
    · by_contra hacc
      exact hne (.inl (findAllCluster_endless_iff.mpr hacc))
    · by_contra hacc
      have hparse : (before ++ group :: after).mapM (parseName dev info) ≠ .error .endless := by
        rw [← hsplit]
        exact fun hend => hne (.inr ⟨clusters,dirPos,free,hfind,hscan,hend⟩)
      exact mapM_reaches hparse (fun g hg _ => hbefore g hg)
        (parseName_endless_iff.mpr ⟨header,hheader,hzero,hacc⟩)
  · rintro hends (hfind | ⟨clusters,dirPos,free,hfind,hscan,hparse⟩)
    · exact findAllCluster_endless_iff.mp hfind (hends _ (.inl rfl))
    · apply mapM_ne_error _ hparse
      intro before group after hsplit hbefore hgroup
      obtain ⟨header,hheader,hzero,hacc⟩ := parseName_endless_iff.mp hgroup
      exact hacc (hends _ (.inr ⟨clusters,dirPos,free,before,group,after,header,hfind,
        hscan,hsplit,hbefore,hheader,rfl,hzero⟩))

theorem loadLevel_ne_endless_iff : loadLevel dev info dentry ≠ .error .endless ↔
    (dentry.inode.mode = .Directory → ∀ c, Follows dev info dentry c → NoCycle dev info c) := by
  unfold loadLevel
  by_cases hdir : dentry.inode.mode = .Directory
  · rw [if_pos hdir,← loadChild_ne_endless_iff]
    simp only [ne_eq,bind_eq_error_iff]
    constructor
    · exact fun h _ hend => h (.inl hend)
    · rintro h (hend | ⟨r,-,hr⟩)
      · exact h hdir hend
      · cases hr
  · rw [if_neg hdir]
    exact iff_of_true nofun fun h => absurd h hdir

/-- The places of the children, in the order of the map. -/
def placed (children : StrMap FatDentry) : List (Str × Bool × ℕ) :=
  children.entries.map fun e => (e.1, place e.2)

def addPlace (places : List (Str × Bool × ℕ)) (child : FatDentry) : List (Str × Bool × ℕ) :=
  (child.dName, place child) :: places.eraseP fun e => child.dName = e.1

theorem addChild_placed {cwd : Str} {childs : List FatDentry}
    {children children' : StrMap FatDentry}
    (h : childs.foldlM (addChild cwd) children = .ok children') :
    (∀ c ∈ childs, '/' ∉ c.dName) ∧ placed children' = childs.foldl addPlace (placed children) := by
  induction childs generalizing children with
  | nil =>
    cases h
    exact ⟨nofun,rfl⟩
  | cons child childs ih =>
    rw [List.foldlM_cons,addChild] at h
    split_ifs at h with hslash
    · cases h
    · obtain ⟨hnames,hplaced⟩ := ih h
      refine ⟨List.forall_mem_cons.mpr ⟨hslash,hnames⟩,hplaced.trans ?_⟩
      rw [List.foldl_cons]
      congr 1
      rw [placed,AList.entries_insert,List.map_cons,List.kerase,addPlace,placed,List.eraseP_map]
      rfl

theorem addChild_ok {childs : List FatDentry} (h : ∀ c ∈ childs, '/' ∉ c.dName) (cwd : Str)
    (children : StrMap FatDentry) :
    ∃ children', childs.foldlM (addChild cwd) children = .ok children' := by
  induction childs generalizing children with
  | nil => exact ⟨children,rfl⟩
  | cons child childs ih =>
    obtain ⟨hslash,hnames⟩ := List.forall_mem_cons.mp h
    rw [List.foldlM_cons,addChild,if_neg hslash]
    exact ih hnames _

theorem places_sorted (children : StrMap FatDentry) : (sortedChildren children).map place =
    ((placed children).insertionSort fun a b => a.1 ≤ b.1).map Prod.snd := by
  have hsort := List.map_insertionSort (r := fun a b : Str × FatDentry => a.1 ≤ b.1)
    (s := fun a b : Str × Bool × ℕ => a.1 ≤ b.1) (fun e => (e.1,place e.2))
    (children.entries.map fun e => (e.1,e.2)) fun _ _ _ _ => Iff.rfl
  rw [List.map_map] at hsort
  have hplaces := congrArg (List.map Prod.snd) hsort
  rw [List.map_map] at hplaces
  rw [sortedChildren,List.map_map]
  exact hplaces

theorem mem_addPlaces {x : Str × Bool × ℕ} {childs : List FatDentry}
    {places : List (Str × Bool × ℕ)} (h : x ∈ childs.foldl addPlace places) :
    x ∈ places ∨ ∃ c ∈ childs, place c = x.2 := by
  induction childs generalizing places with
  | nil => exact .inl h
  | cons child childs ih =>
    rcases ih h with hmem | ⟨c,hc,hx⟩
    · rcases List.mem_cons.mp hmem with rfl | hmem
      · exact .inr ⟨child,List.mem_cons_self,rfl⟩
      · exact .inl (List.mem_of_mem_eraseP hmem)
    · exact .inr ⟨c,List.mem_cons_of_mem child hc,hx⟩

theorem loadLevel_ok {data : Option NxtFreePos} {l : List FatDentry}
    (h : loadLevel dev info dentry = .ok (data, l)) :
    dentry.inode.mode ≠ .Directory ∧ l = [] ∨
    dentry.inode.mode = .Directory ∧ ∃ clusters dirPos free childs,
      findAllCluster dev info dentry.inode.pos.dataCluster = .ok clusters ∧
      scanEntries dev (slots info clusters) = .ok (dirPos, free) ∧
      parseChild dev info dirPos = .ok childs ∧ (∀ c ∈ childs, '/' ∉ c.dName) ∧
      l.map place = ((childs.foldl addPlace []).insertionSort fun a b => a.1 ≤ b.1).map
        Prod.snd := by
  unfold loadLevel at h
  split_ifs at h with hdir
  · simp only [loadChild,bind_eq_ok_iff,mapError_eq_ok_iff] at h
    obtain ⟨_,⟨clusters,hfind,⟨dirPos,free⟩,hscan,childs,hparse,children,hfold,hr⟩,hl⟩ := h
    cases hr
    cases hl
    obtain ⟨hnames,hplaced⟩ := addChild_placed hfold
    refine .inr ⟨hdir,clusters,dirPos,free,childs,hfind,hscan,hparse,hnames,?_⟩
    rw [places_sorted,hplaced]
    rfl
  · cases h
    exact .inl ⟨hdir,rfl⟩

theorem loadLevel_congr {dentry' : FatDentry} {data : Option NxtFreePos} {children : List FatDentry}
    (h : loadLevel dev info dentry = .ok (data, children)) (hplace : place dentry = place dentry') :
    ∃ data' children', loadLevel dev info dentry' = .ok (data', children') ∧
      children'.map place = children.map place := by
  obtain ⟨hmode,hcluster⟩ := Prod.mk.inj hplace
  rw [decide_eq_decide] at hmode
  rcases loadLevel_ok h with ⟨hfile,rfl⟩ |
    ⟨hdir,clusters,dirPos,free,childs,hfind,hscan,hparse,hnames,hplaces⟩
  · exact ⟨none,[],if_neg (hmode.not.mp hfile),rfl⟩
  · obtain ⟨children',hfold⟩ := addChild_ok hnames dentry'.dPath ∅
    have hload : loadLevel dev info dentry' = .ok (some free, sortedChildren children') := by
      simp only [loadLevel,if_pos (hmode.mp hdir),loadChild,bind_eq_ok_iff,mapError_eq_ok_iff]
      exact ⟨_,⟨clusters,hcluster ▸ hfind,_,hscan,childs,hparse,children',hfold,rfl⟩,rfl⟩
    refine ⟨_,_,hload,?_⟩
    rw [places_sorted,(addChild_placed hfold).2,hplaces]
    rfl

theorem header_lt {group : Group} {header : Header} (h : group.header = .ok header) :
    header.pos.dataCluster < 2 ^ 32 := by
  have hword : ∀ data : List UInt8, ∀ offset, field data offset 2 < 2 ^ 16 := fun data offset =>
    LittleEndianWords.leWord_lt 2 _
  unfold Group.header shortHeader longHeader headerOf at h
  split_ifs at h
  · simp only [bind_eq_ok_iff] at h
    obtain ⟨_,-,_,-,_,-,h⟩ := h
    cases h
    exact Nat.mod_lt _ (by decide)
  · simp only [bind_eq_ok_iff] at h
    obtain ⟨_,-,_,-,h⟩ := h
    cases h
    have hhigh := hword group.short.1.val 20
    refine Nat.or_lt_two_pow ((hword _ 26).trans (by decide)) ?_
    change field group.short.1.val 20 2 * 2 ^ 16 < 2 ^ 32
    omega

theorem place_mem {child : FatDentry} (h : Visits (loadLevel dev info) dentry child) :
    place child ∈ (Finset.univ : Finset Bool) ×ˢ Finset.range (2 ^ 32) := by
  obtain ⟨data,before,after,hlevel,-⟩ := h
  rcases loadLevel_ok hlevel with ⟨-,hnil⟩ | ⟨-,_,_,_,childs,-,-,hparse,-,hplaces⟩
  · simp at hnil
  · have hmem : place child ∈ (before ++ child :: after).map place := by simp
    rw [hplaces] at hmem
    obtain ⟨x,hx,hplace⟩ := List.mem_map.mp hmem
    obtain ⟨c,hc,hsame⟩ := (mem_addPlaces ((List.mem_insertionSort _).mp hx)).resolve_left nofun
    obtain ⟨group,-,hname⟩ := mem_of_mapM_ok hparse hc
    simp only [parseName,bind_eq_ok_iff,mapError_eq_ok_iff] at hname
    obtain ⟨header,hheader,file,-,hc'⟩ := hname
    rw [← hplace,← hsame]
    cases hc'
    exact Finset.mem_product.mpr ⟨Finset.mem_univ _,Finset.mem_range.mpr (header_lt hheader)⟩

theorem acyclic_iff_tame :
    Acyclic dev info dentry ↔ Tame (loadLevel dev info) .endless dentry := by
  rw [tame_iff]
  refine ⟨fun h => ⟨acc_of_noRepeat place_mem h.directories,fun b hb => ?_⟩,
    fun h => ⟨fun b hb => ?_,noRepeat_of_acc (visits_congr loadLevel_congr) h.1⟩⟩
  · exact loadLevel_ne_endless_iff.mpr (h.chains b hb)
  · exact loadLevel_ne_endless_iff.mp (h.2 b hb)

end Levels

section Termination

variable {dev : BlockDevice} {boot : Sector}

/-- The mount comes back, with a tree or with an error. -/
def Finishes (mountPoint : Str) (now : TimeSpec) (dev : BlockDevice) : Prop :=
  ∃ fuel, Fat32FileSystem.new fuel mountPoint now dev ≠ .error .endless

theorem new_eq (hboot : dev.sectors[0]? = some boot) (hvalid : (loadBpb boot).isValid = true)
    (fuel : ℕ) (mountPoint : Str) (now : TimeSpec) :
    Fat32FileSystem.new fuel mountPoint now dev = (do
      let fsInfo ← (FSInfo.init dev (loadBpb boot).fsInfo.toNat).mapError .panic
      let file ← FatDiskFile.init dev (FatInfo.init (loadBpb boot) hvalid) rootClusterNum
      let root ← loadAllChild dev (FatInfo.init (loadBpb boot) hvalid) fuel
        (rootDentry mountPoint now file)
      pure ⟨fsInfo, root⟩) := by
  unfold Fat32FileSystem.new BlockDevice.readBlock
  rw [hboot]
  exact dif_pos hvalid

theorem fsInfo_init {n : ℕ} :
    (∃ fsInfo, FSInfo.init dev n = .ok fsInfo) ↔ (dev.sectors[n]?).isSome := by
  unfold FSInfo.init
  cases hsector : dev.sectors[n]? with
  | none =>
    rw [readAt_outside hsector]
    exact iff_of_false (fun ⟨_,h⟩ => nomatch h) Bool.false_ne_true
  | some sector =>
    rw [readAt_ok hsector (Nat.zero_add _).le]
    exact iff_of_true ⟨_,rfl⟩ rfl

/-- A disk with a valid boot sector is mounted in finite time exactly if no chain that the mount
follows runs into a cycle and no directory that it visits is below itself. Without the sector of
`FSINFO` the mount stops at once. -/
theorem mount_finishes_iff (hboot : dev.sectors[0]? = some boot)
    (hvalid : (loadBpb boot).isValid = true) (mountPoint : Str) (now : TimeSpec) :
    Finishes mountPoint now dev ↔
      ((dev.sectors[(loadBpb boot).fsInfo.toNat]?).isSome →
        NoCycle dev (FatInfo.init (loadBpb boot) hvalid) rootClusterNum ∧
        ∀ file, FatDiskFile.init dev (FatInfo.init (loadBpb boot) hvalid)
          rootClusterNum = .ok file →
          Acyclic dev (FatInfo.init (loadBpb boot) hvalid) (rootDentry mountPoint now file)) := by
  unfold Finishes
  simp only [new_eq hboot hvalid,acyclic_iff_tame,← traverse_finishes_iff]
  generalize FatInfo.init (loadBpb boot) hvalid = info
  rw [← fsInfo_init]
  simp only [ne_eq,bind_eq_error_iff,mapError_eq_error_iff,mapError_eq_ok_iff,init_endless_iff]
  constructor
  · rintro ⟨fuel,hne⟩ ⟨fsInfo,hfs⟩
    constructor
    · by_contra hacc
      exact hne (.inr ⟨fsInfo,hfs,.inl ⟨by decide,hacc⟩⟩)
    · intro file hfile
      exact ⟨fuel,fun hend => hne (.inr ⟨fsInfo,hfs,.inr ⟨file,hfile,.inl hend⟩⟩)⟩
  · intro h
    by_cases hfs : ∃ fsInfo, FSInfo.init dev (loadBpb boot).fsInfo.toNat = .ok fsInfo
    · obtain ⟨hacc,hroot⟩ := h hfs
      cases hfile : FatDiskFile.init dev info rootClusterNum with
      | error stop =>
        refine ⟨0,?_⟩
        rintro (⟨_,-,hend⟩ | ⟨_,-,⟨-,hend⟩ | ⟨file,hok,-⟩⟩)
        · cases hend
        · exact hend hacc
        · cases hok
      | ok file =>
        obtain ⟨fuel,hfuel⟩ := hroot file hfile
        refine ⟨fuel,?_⟩
        rintro (⟨_,-,hend⟩ | ⟨_,-,⟨-,hend⟩ | ⟨file',hok,hend | ⟨_,-,hend⟩⟩⟩)
        · cases hend
        · exact hend hacc
        · cases hok
          exact hfuel hend
        · cases hend
    · refine ⟨0,?_⟩
      rintro (⟨_,-,hend⟩ | ⟨fsInfo,hok,-⟩)
      · cases hend
      · exact hfs ⟨fsInfo,hok⟩

end Termination

/-- One reserved sector besides the boot sector, one table of one sector, clusters of one sector. -/
def bootRecord : Sector :=
  ⟨[0xEB, 0x58, 0x90] ++ List.replicate 8 0 ++ [0x00, 0x02, 0x01, 0x02, 0x00, 0x01] ++
    List.replicate 15 0 ++ [0x08, 0x00, 0x00, 0x00, 0x01, 0x00, 0x00, 0x00] ++
    List.replicate 8 0 ++ [0x01, 0x00, 0x01, 0x00] ++ List.replicate 460 0, by
      simp only [List.length_append, List.length_replicate]; rfl⟩

def zeroSector : Sector := ⟨List.replicate sectorSize 0, length_zeros⟩

def tableWith (value : ℕ) : Sector :=
  ⟨[0x0FFF_FFF8, endMark, value].flatMap (LittleEndianWords.leBytes 4) ++ List.replicate 500 0, by
    rw [List.length_append, List.length_replicate]; rfl⟩

def diskWith (value : ℕ) : BlockDevice :=
  ⟨[bootRecord, zeroSector, tableWith value, zeroSector], by
    change 4 * sectorSize < wordSize; decide⟩

theorem bootRecord_valid : (loadBpb bootRecord).isValid = true := by decide +kernel

/-- An empty root directory. -/
theorem empty_root_mounts : (loadBpb bootRecord).isValid = true ∧
    Finishes ['/'] ⟨0, 0⟩ (diskWith endMark) := by
  have hends : NoCycle (diskWith endMark)
    (FatInfo.init (loadBpb bootRecord) bootRecord_valid) 2 := by
    refine noRepeat_of_last ?_
    rintro d ⟨hentry,-,hle⟩
    have hmark : entryAt (diskWith endMark) (FatInfo.init (loadBpb bootRecord) bootRecord_valid) 2 =
      some endMark := by decide +kernel
    cases hentry.symm.trans hmark
    exact absurd hle (by decide)
  refine ⟨bootRecord_valid,(mount_finishes_iff rfl bootRecord_valid ['/'] ⟨0,0⟩).mpr fun _ =>
    ⟨hends,fun file _ => ?_⟩⟩
  have hscan : ((scanEntries (diskWith endMark) (slots (FatInfo.init (loadBpb bootRecord)
    bootRecord_valid) [2])).toOption.map fun r => r.1.isEmpty) = some true := by decide +kernel
  have hfind : findAllCluster (diskWith endMark) (FatInfo.init (loadBpb bootRecord)
    bootRecord_valid) 2 = .ok [2] := rfl
  generalize FatInfo.init (loadBpb bootRecord) bootRecord_valid = info at hends hscan hfind ⊢
  have hnone : ∀ clusters dirPos free, findAllCluster (diskWith endMark) info 2 = .ok clusters →
      scanEntries (diskWith endMark) (slots info clusters) = .ok (dirPos, free) → dirPos = [] := by
    intro clusters dirPos free hclusters h
    cases hfind.symm.trans hclusters
    rw [h] at hscan
    exact List.isEmpty_iff.mp (Option.some.inj hscan)
  have hvisits : ∀ child, ¬ Visits (loadLevel (diskWith endMark) info)
      (rootDentry ['/'] ⟨0,0⟩ file) child := by
    rintro child ⟨data,before,after,hlevel,-⟩
    rcases loadLevel_ok hlevel with ⟨hfile,-⟩ | ⟨-,_,_,_,childs,hclusters,hdir,hparse,-,hplaces⟩
    · exact hfile rfl
    · rw [hnone _ _ _ hclusters hdir] at hparse
      cases hparse
      simp at hplaces
  refine ⟨fun dentry hreach _ c hc => ?_,noRepeat_of_last hvisits⟩
  rcases hreach.cases_head with rfl | ⟨child,hchild,-⟩
  · rcases hc with rfl | ⟨clusters,dirPos,_,_,_,_,_,hclusters,hdir,hsplit,-⟩
    · exact hends
    · rw [hnone _ _ _ hclusters hdir] at hsplit
      simp [groups] at hsplit
  · exact (hvisits child hchild).elim

/-- The entry of the root directory names itself as the next one. -/
theorem cyclic_root_never_mounts : (diskWith 2).sectors[0]? = some bootRecord ∧
    (loadBpb bootRecord).isValid = true ∧
    ∀ mountPoint now, ¬ Finishes mountPoint now (diskWith 2) := by
  refine ⟨rfl,bootRecord_valid,?_⟩
  rintro mountPoint now ⟨fuel,hne⟩
  apply hne
  have hself : LinksTo (diskWith 2) (FatInfo.init (loadBpb bootRecord) bootRecord_valid) 2 2 :=
    ⟨by decide +kernel,le_rfl,by decide⟩
  obtain ⟨fsInfo,hfs⟩ : ∃ fsInfo, FSInfo.init (diskWith 2) 1 = .ok fsInfo := fsInfo_init.mpr rfl
  rw [new_eq rfl bootRecord_valid]
  exact bind_eq_error_iff.mpr (.inr ⟨fsInfo,mapError_eq_ok_iff.mpr hfs,bind_eq_error_iff.mpr
    (.inl (init_endless_iff.mpr ⟨by decide,fun h => h 2 2 .refl (.single hself) rfl⟩))⟩)

end DuckOs.FatMount
