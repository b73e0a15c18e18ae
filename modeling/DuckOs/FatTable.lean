import DuckOs.FatLayout
import DuckOs.LinkedChains

namespace DuckOs.FatTable
open AddressModel BlockDevices FatLayout LinkedChains

variable {fat : ℕ → Option ℕ}

inductive FatEntryStatus where
  | next (cluster : ℕ)
  | endOfFile
  | free
  | wrong
  deriving DecidableEq

def maxCluster : ℕ := 0x0FFF_FFEF

/-- The mark that the kernel writes at the end of a chain. -/
def endMark : ℕ := 0x0FFF_FFFF

def status (value : ℕ) : FatEntryStatus :=
  if value = 0 then .free
  else if value = 0x0FFF_FFFF ∨ value = 0x0FFF_FFF8 then .endOfFile
  else if 2 ≤ value ∧ value ≤ maxCluster then .next value
  else .wrong

def nextCluster (value : ℕ) : Except Panic (Option ℕ) :=
  match status value with
  | .next next => .ok (some next)
  | .endOfFile => .ok none
  | _ => .error .explicit

inductive Stop where
  | panic (reason : Panic)
  /-- the kernel does not come back -/
  | endless
  deriving DecidableEq

def nextOf (dev : BlockDevice) (info : FatInfo) (cluster : ℕ) : Except Panic (Option ℕ) := do
  let bytes ← readAt dev (clusterToEntry info cluster).1 (clusterToEntry info cluster).2 4
  nextCluster (field bytes 0 4)

def findAllCluster (dev : BlockDevice) (info : FatInfo) (cluster : ℕ) : Except Stop (List ℕ) :=
  match follow (nextOf dev info) maxCluster cluster with
  | none => .error .endless
  | some (.error reason) => .error (.panic reason)
  | some (.ok clusters) => .ok clusters

/-- `dataCluster` is that of the position of the inode. -/
structure FatDiskFile where
  clusters : List ℕ
  size : ℕ
  dataCluster : ℕ

structure FatState where
  device : BlockDevice
  freeCount : ℕ
  nxtFree : ℕ
  files : List FatDiskFile
  /-- the clusters handed out and their entries at that time; no code reads it -/
  handed : List (ℕ × Option ℕ)

abbrev FatM := EStateM Stop FatState

def liftPanic {α : Type} : Except Panic α → FatM α
  | .ok a => pure a
  | .error reason => throw (.panic reason)

def modifyEntry (info : FatInfo) (id : ℕ) (check : ℕ → Bool) (value : ℕ) : FatM Unit := do
  let s ← get
  let old ← liftPanic (readEntry s.device info id)
  if check old then
    let device ← liftPanic (writeEntry s.device info id value)
    set { s with device := device }
  else throw (.panic .assertion)

def modifyPrev (info : FatInfo) (prevId : Option ℕ) (check : ℕ → Bool) (value : ℕ) : FatM Unit :=
  match prevId with
  | some pId => modifyEntry info pId check value
  | none => pure ()

section Clusters

def incr32 (n : ℕ) : ℕ := (n + 1) % 2 ^ 32

def decr32 (n : ℕ) : ℕ := if n = 0 then 2 ^ 32 - 1 else n - 1

variable (info : FatInfo)

def allocCluster (prevId : Option ℕ) : FatM (Option ℕ) := do
  let s ← get
  set { s with
    freeCount := decr32 s.freeCount
    nxtFree := incr32 s.nxtFree
    handed := s.handed ++ [(s.nxtFree, entryAt s.device info s.nxtFree)] }
  modifyPrev info prevId (fun value => status value = .endOfFile) s.nxtFree
  modifyEntry info s.nxtFree (fun _ => true) endMark
  pure (some s.nxtFree)

def freeCluster (id : ℕ) (prevId : Option ℕ) : FatM Unit := do
  modifyPrev info prevId (fun value => value = id) endMark
  modify fun s => { s with freeCount := incr32 s.freeCount }
  modifyEntry info id (fun value => value = endMark) 0

def popClusters (clusNum : ℕ) : List ℕ → FatM (List ℕ)
  | [] => pure []
  | endClu :: rest =>
    if rest.length + 1 > clusNum then do
      freeCluster info endClu rest.head?
      popClusters clusNum rest
    else pure (endClu :: rest)

/-- The second loop of `modify_size`. The last cluster is unwrapped before the list is checked to
be empty. -/
def pushClusters : ℕ → List ℕ → FatM (List ℕ)
  | 0, clusters => pure clusters
  | more + 1, clusters =>
    match clusters.getLast? with
    | none => throw (.panic .unwrapNone)
    | some endClu => do
      let newClu ← allocCluster info (if clusters.isEmpty then none else some endClu)
      match newClu with
      | none => throw (.panic .unwrapNone)
      | some newClu => pushClusters more (clusters ++ [newClu])

end Clusters

section Sizes

variable (info : FatInfo)

def isizeSum (size : ℕ) (diff : ℤ) : ℤ := ((size : ℤ).bmod wordSize + diff).bmod wordSize

def asUsize (x : ℤ) : ℕ := (x % (wordSize : ℤ)).toNat

def clusterBytes : ℕ := info.secPerClus * sectorSize

def clusNum (newSz : ℕ) : ℕ :=
  (newSz + clusterBytes info + (wordSize - 1)) % wordSize / clusterBytes info

def resize (diff : ℤ) (file : FatDiskFile) : FatM FatDiskFile := do
  let sum := isizeSum file.size diff
  if diff < 0 ∧ 0 < sum then
    let rest ← popClusters info (clusNum info (asUsize sum)) file.clusters.reverse
    pure { file with clusters := rest.reverse, size := asUsize sum }
  else if 0 < diff then
    let more := clusNum info (asUsize sum) - file.clusters.length
    let clusters ← pushClusters info more file.clusters
    pure { file with clusters := clusters, size := asUsize sum }
  else pure file

def calClusterSize (file : FatDiskFile) : FatM FatDiskFile := do
  if file.dataCluster = 0 then pure file
  else
    let s ← get
    match findAllCluster s.device info file.dataCluster with
    | .error stop => throw stop
    | .ok clusters => pure { file with
        clusters := clusters
        size := if file.size = 0 then clusters.length * clusterBytes info else file.size }

def modifySize (i : ℕ) (diff : ℤ) : FatM Unit := do
  let s ← get
  match s.files[i]? with
  | none => pure ()
  | some file =>
    let file ← resize info diff file
    let file ← calClusterSize info file
    modify fun s => { s with files := s.files.set i file }

end Sizes

section Lookup

variable {dev : BlockDevice} {info : FatInfo} {l : List ℕ} {c d : ℕ}

def links (fat : ℕ → Option ℕ) (cluster : ℕ) : Except Panic (Option ℕ) :=
  (fat cluster).elim (.error .explicit) nextCluster

theorem nextOf_eq (dev : BlockDevice) (info : FatInfo) :
    nextOf dev info = links (entryAt dev info) := by
  funext c
  have hread := readEntry_eq dev info c
  have hnext : nextOf dev info c = readEntry dev info c >>= nextCluster := by
    unfold readEntry
    rw [bind_assoc]
    rfl
  rw [hnext,hread]
  unfold links
  cases entryAt dev info c with
  | none => rfl
  | some value => rfl

theorem nextCluster_some {value : ℕ} (h : nextCluster value = .ok (some d)) :
    d = value ∧ 2 ≤ d ∧ d ≤ maxCluster := by
  unfold nextCluster status at h
  split at h
  · rename_i next hstatus
    split at hstatus
    · cases hstatus
    · split at hstatus
      · cases hstatus
      · split at hstatus
        · rename_i hrange
          cases hstatus
          cases h
          exact ⟨rfl,hrange⟩
        · cases hstatus
  · cases h
  · cases h

theorem links_some (h : links fat c = .ok (some d)) : fat c = some d ∧ 2 ≤ d ∧ d ≤ maxCluster := by
  unfold links at h
  cases hc : fat c with
  | none =>
    rw [hc] at h
    cases h
  | some value =>
    rw [hc] at h
    obtain ⟨rfl,hrange⟩ := nextCluster_some h
    exact ⟨rfl,hrange⟩

theorem mem_range_of_links :
    ∀ a b, links fat a = .ok (some b) → b ∈ Finset.Icc 2 maxCluster := fun _ _ h =>
  Finset.mem_Icc.mpr (links_some h).2

theorem follow_maxCluster {n : ℕ} {r : Except Panic (List ℕ)}
    (h : follow (links fat) n c = some r) :
    follow (links fat) maxCluster c = some r := by
  have hcard : (Finset.Icc 2 maxCluster).card + 1 = maxCluster := by
    rw [Nat.card_Icc]
    rfl
  rw [← hcard]
  exact follow_bounded mem_range_of_links h

theorem findAllCluster_of_isChain (h : IsChain (links (entryAt dev info)) (c :: l)) :
    findAllCluster dev info c = .ok (c :: l) := by
  unfold findAllCluster
  rw [nextOf_eq,follow_maxCluster (follow_of_isChain h)]

end Lookup

end DuckOs.FatTable
