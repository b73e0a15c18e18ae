import DuckOs.FatClusters

namespace DuckOs.FatChains
open AddressModel BlockDevices FatLayout LinkedChains FatTable FatClusters

variable {fat : ℕ → Option ℕ} {value c : ℕ} {next : Option ℕ}

def formatLinks (fat : ℕ → Option ℕ) (cluster : ℕ) : Except Panic (Option ℕ) :=
  match fat cluster with
  | none => .error .explicit
  | some value =>
    if 0x0FFF_FFF8 ≤ value % 2 ^ 28 then .ok none
    else if 2 ≤ value % 2 ^ 28 ∧ value % 2 ^ 28 ≤ 0x0FFF_FFF6 then .ok (some (value % 2 ^ 28))
    else .error .explicit

/-- The reserved bits are zero, and the value is a link or one of two end marks. -/
def Read (value : ℕ) : Prop := value = 0x0FFF_FFFF ∨ value = 0x0FFF_FFF8 ∨ value ≤ maxCluster

theorem read_of_nextCluster (h : nextCluster value = .ok next) : Read value := by
  unfold nextCluster status at h
  unfold Read
  split_ifs at h with hfree hend hlink
  · omega
  · exact .inr (.inr hlink.2)

theorem nextCluster_of_read (hread : Read value) (hfat : fat c = some value)
    (h : formatLinks fat c = .ok next) : nextCluster value = .ok next := by
  unfold Read maxCluster at hread
  simp only [formatLinks,hfat] at h
  unfold nextCluster status maxCluster
  split_ifs at h with hend hlink
  · cases h
    have hmark : value = 0x0FFF_FFFF ∨ value = 0x0FFF_FFF8 := by omega
    rw [if_neg (by omega),if_pos hmark]
  · cases h
    rw [if_neg (by omega),if_neg (by omega),if_pos (by omega),Nat.mod_eq_of_lt (by omega)]

theorem findAllCluster_ok {dev : BlockDevice} {info : FatInfo} {l : List ℕ}
    (h : findAllCluster dev info c = .ok l) :
    ∀ x ∈ l, ∃ next, links (entryAt dev info) x = .ok next := by
  unfold findAllCluster at h
  rw [nextOf_eq] at h
  split at h
  · cases h
  · cases h
  · rename_i hfollow
    cases h
    exact follow_ok hfollow

/-- Along every chain of the format, `find_all_cluster` returns the chain exactly if it can read
each entry. -/
theorem finds_chain_iff (dev : BlockDevice) (info : FatInfo) (c : ℕ) (l : List ℕ)
    (chain : IsChain (formatLinks (entryAt dev info)) (c :: l)) :
    findAllCluster dev info c = .ok (c :: l) ↔
      ∀ x ∈ c :: l, ∀ value, entryAt dev info x = some value → Read value := by
  constructor
  · intro hfind x hx value hvalue
    obtain ⟨next,hnext⟩ := findAllCluster_ok hfind x hx
    simp only [links,hvalue,Option.elim_some] at hnext
    exact read_of_nextCluster hnext
  · intro hread
    refine findAllCluster_of_isChain (chain.congr fun x hx => ?_)
    obtain ⟨next,hnext⟩ := chain.ok_of_mem hx
    rw [hnext]
    unfold links
    cases hvalue : entryAt dev info x with
    | none => simp [formatLinks,hvalue] at hnext
    | some value => exact nextCluster_of_read (hread x hx value hvalue) hvalue hnext

/-- A chain of two clusters with this end mark. -/
def volume (mark : ℕ) : BlockDevice :=
  ⟨[⟨List.replicate sectorSize 0, length_zeros⟩,
    ⟨[0x0FFF_FFF8, endMark, 3, mark].flatMap (LittleEndianWords.leBytes 4) ++ List.replicate 496 0,
      by rw [List.length_append, List.length_replicate]; rfl⟩],
      by change 2 * sectorSize < wordSize; decide⟩

theorem volume_chain {mark : ℕ} (hfirst : entryAt (volume mark) smallInfo 2 = some 3)
    (hlast : entryAt (volume mark) smallInfo 3 = some mark) (hmark : 0x0FFF_FFF8 ≤ mark % 2 ^ 28) :
    IsChain (formatLinks (entryAt (volume mark) smallInfo)) [2, 3] := by
  constructor
  · simp [formatLinks,hfirst]
  · change formatLinks (entryAt (volume mark) smallInfo) 3 = .ok none
    simp only [formatLinks,hlast,if_pos hmark]

theorem finds_chain_two : IsChain (formatLinks (entryAt (volume endMark) smallInfo)) [2, 3] ∧
    findAllCluster (volume endMark) smallInfo 2 = .ok [2, 3] := by
  have hentry : entryAt (volume endMark) smallInfo 2 = some 3 ∧
      entryAt (volume endMark) smallInfo 3 = some endMark := by decide +kernel
  have hchain := volume_chain hentry.1 hentry.2 (by decide)
  refine ⟨hchain,(finds_chain_iff _ _ _ _ hchain).mpr ?_⟩
  intro x hx value hvalue
  simp only [List.mem_cons,List.not_mem_nil,or_false] at hx
  rcases hx with rfl | rfl
  · cases hentry.1.symm.trans hvalue
    exact .inr (.inr (by decide))
  · cases hentry.2.symm.trans hvalue
    exact .inl rfl

/-- Another of the eight end marks stops the kernel. -/
theorem other_mark_stops :
    IsChain (formatLinks (entryAt (volume 0x0FFF_FFFC) smallInfo)) [2, 3] ∧
    findAllCluster (volume 0x0FFF_FFFC) smallInfo 2 = .error (.panic .explicit) := by
  have hentry : entryAt (volume 0x0FFF_FFFC) smallInfo 2 = some 3 ∧
      entryAt (volume 0x0FFF_FFFC) smallInfo 3 = some 0x0FFF_FFFC := by decide +kernel
  exact ⟨volume_chain hentry.1 hentry.2 (by decide),by decide +kernel⟩

end DuckOs.FatChains
