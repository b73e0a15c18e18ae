import DuckOs.OrderedSearches
import DuckOs.SegmentTables

namespace DuckOs.SegmentLookups
open ExecutionRules AddressModel KernelMachine VirtMemoryModel MemorySetModel
open SyscallSteps BootMachine UnmapRounds RangeRemoval
open SegmentTables
open OrderedMaps OrderedSearches

variable {vma : VirtMemoryAddr} {areas : VmaRange}

section Lookups

def SegmentAt (areas : VmaRange) (va : ℕ) : Option (ℕ × VirtMemoryAddr) → Prop
  | some (k, vma) => areas[k]? = some vma ∧ Within vma va
  | none => ∀ (k : ℕ) (vma : VirtMemoryAddr), areas[k]? = some vma → ¬ Within vma va

/-- Both lookups return the segment that has the address. -/
structure LookupsExact (ms : MemorySet) (m : Machine) (va : ℕ) : Prop where
  byAddress : SegmentAt ms.areas va (ms.findVmByVaddr va)
  byPage : ms.findVmMutByVpn (va >>> pageSizeBits) m = .ok (ms.findVmByVaddr va) m

/-- A segment that ends at the address comes after one that has it, and the bounds of every
segment up to the one that has it are accepted. -/
structure Unambiguous (areas : VmaRange) (va : ℕ) : Prop where
  ends : ∀ (k : ℕ) (vma : VirtMemoryAddr), areas[k]? = some vma → vma.startVaddr ≤ va →
    vma.endVaddr = va →
      ∃ (k' : ℕ) (vma' : VirtMemoryAddr), k' < k ∧ areas[k']? = some vma' ∧ Within vma' va
  bounds : ∀ (k : ℕ) (vma : VirtMemoryAddr), areas[k]? = some vma →
    (∀ (k' : ℕ) (vma' : VirtMemoryAddr), k' < k → areas[k']? = some vma' → ¬ Within vma' va) →
      checkUserVa vma.startVaddr = true ∧ checkUserVa vma.endVaddr = true

def BoundsAccepted (e : ℕ × VirtMemoryAddr) : Prop :=
  checkUserVa e.2.startVaddr = true ∧ checkUserVa e.2.endVaddr = true

variable {va : ℕ}

theorem isContain_iff (vma : VirtMemoryAddr) (va : ℕ) :
    vma.isContain va = true ↔ Within vma va ∨ vma.startVaddr ≤ va ∧ vma.endVaddr = va := by
  simp only [VirtMemoryAddr.isContain,Within,Bool.and_eq_true,decide_eq_true_eq]
  omega

theorem find_contain_eq (ends : ∀ (k : ℕ) (vma : VirtMemoryAddr), areas[k]? = some vma →
    vma.startVaddr ≤ va → vma.endVaddr = va →
      ∃ (k' : ℕ) (vma' : VirtMemoryAddr), k' < k ∧ areas[k']? = some vma' ∧ Within vma' va) :
    areas.toList.find? (fun e => e.2.isContain va) =
      areas.toList.find? fun e => decide (Within e.2 va) := by
  have misses : ∀ vma : VirtMemoryAddr, vma.isContain va = false → ¬ Within vma va := by
    intro vma hc hin
    exact Bool.false_ne_true (hc.symm.trans ((isContain_iff vma va).mpr (.inl hin)))
  cases hfind : areas.toList.find? (fun e => e.2.isContain va) with
  | none =>
    symm
    rw [find?_toList_eq_none] at hfind ⊢
    exact fun k vma hk => decide_eq_false (misses vma (hfind k vma hk))
  | some e =>
    obtain ⟨k,vma⟩ := e
    obtain ⟨hk,hc,hfirst⟩ := find?_toList_eq_some.mp hfind
    symm
    refine find?_toList_eq_some.mpr ⟨hk,decide_eq_true ?_,?_⟩
    · rcases (isContain_iff vma va).mp hc with hin | ⟨hstart,hend⟩
      · exact hin
      · obtain ⟨k',vma',hlt,hk',hin⟩ := ends k vma hk hstart hend
        exact absurd hin (misses vma' (hfirst k' vma' hlt hk'))
    · exact fun k' vma' hlt hk' => decide_eq_false (misses vma' (hfirst k' vma' hlt hk'))

theorem segmentAt_find (areas : VmaRange) (va : ℕ) :
    SegmentAt areas va (areas.toList.find? fun e => decide (Within e.2 va)) := by
  cases hfind : areas.toList.find? (fun e => decide (Within e.2 va)) with
  | none => exact fun k vma hk => of_decide_eq_false (find?_toList_eq_none.mp hfind k vma hk)
  | some e =>
    obtain ⟨hk,hin,-⟩ := find?_toList_eq_some.mp hfind
    exact ⟨hk,of_decide_eq_true hin⟩

theorem pages_contain_iff (hs : 4096 ∣ vma.startVaddr) (he : 4096 ∣ vma.endVaddr) :
    (decide (vma.startVaddr / 4096 ≤ va >>> pageSizeBits) &&
      decide (va >>> pageSizeBits < vma.endVaddr / 4096)) = decide (Within vma va) := by
  have hshift : va >>> pageSizeBits = va / 4096 := Nat.shiftRight_eq_div_pow va 12
  rw [hshift,← Bool.decide_and,decide_eq_decide]
  unfold Within
  omega

theorem vmaRange_eq (vma : VirtMemoryAddr) (m : Machine) :
    (vma.vmaRange : Kernel (ℕ × ℕ)) m =
      if checkUserVa vma.startVaddr && checkUserVa vma.endVaddr then
        .ok (vma.startVaddr / 4096, vma.endVaddr / 4096) m
      else .error .assertion m := by
  unfold VirtMemoryAddr.vmaRange
  cases hs : checkUserVa vma.startVaddr with
  | false =>
    apply bind_error
    rw [virtToVpn_eq,hs]
    rfl
  | true =>
    have hfirst : (virtToVpn vma.startVaddr : Kernel ℕ) m = .ok (vma.startVaddr / 4096) m := by
      rw [virtToVpn_eq,if_pos hs]
    rw [bind_ok hfirst]
    cases he : checkUserVa vma.endVaddr with
    | false =>
      apply bind_error
      rw [virtToVpn_eq,he]
      rfl
    | true =>
      have hlast : (virtToVpn vma.endVaddr : Kernel ℕ) m = .ok (vma.endVaddr / 4096) m := by
        rw [virtToVpn_eq,if_pos he]
      rw [bind_ok hlast]
      rfl

theorem findVmMutByVpn_cases {ms : MemorySet} (aligned : Aligned ms.areas) (m : Machine) (va : ℕ) :
    (Judged BoundsAccepted (fun e => decide (Within e.2 va)) ms.areas.toList →
      ms.findVmMutByVpn (va >>> pageSizeBits) m =
        .ok (ms.areas.toList.find? fun e => decide (Within e.2 va)) m) ∧
    (¬ Judged BoundsAccepted (fun e => decide (Within e.2 va)) ms.areas.toList →
      ∃ err, ms.findVmMutByVpn (va >>> pageSizeBits) m = .error err m) := by
  refine findM?_judged ms.areas.toList ?_ ?_
  · intro e he hok
    have hrange := vmaRange_eq e.2 m
    rw [hok.1,hok.2] at hrange
    obtain ⟨hs,hend⟩ := aligned e.1 e.2 (mem_toList.mp he)
    rw [bind_ok hrange,← pages_contain_iff hs hend]
    rfl
  · intro e _ hnot
    have hrange := vmaRange_eq e.2 m
    rw [if_neg (by rwa [Bool.and_eq_true])] at hrange
    exact ⟨_,bind_error hrange⟩

end Lookups

/-- The two lookups agree and are exact for an address exactly when no segment ends at it,
unless a segment under a smaller key has it, and the bounds looked at are accepted. -/
theorem lookups_exact_iff (ms : MemorySet) (m : Machine) (aligned : Aligned ms.areas) (va : ℕ) :
    LookupsExact ms m va ↔ Unambiguous ms.areas va := by
  obtain ⟨returns,stops⟩ := findVmMutByVpn_cases aligned m va
  constructor
  · rintro ⟨hat,hpage⟩
    refine ⟨?_,?_⟩
    · intro k vma hk hstart hend
      have hc : vma.isContain va = true := (isContain_iff vma va).mpr (.inr ⟨hstart,hend⟩)
      cases hfind : ms.findVmByVaddr va with
      | none =>
        exact absurd hc (Bool.eq_false_iff.mp (find?_toList_eq_none.mp hfind k vma hk))
      | some e =>
        obtain ⟨k',vma'⟩ := e
        rw [hfind] at hat
        obtain ⟨hk',hin⟩ := hat
        refine ⟨k',vma',?_,hk',hin⟩
        obtain ⟨-,-,hfirst⟩ := find?_toList_eq_some.mp hfind
        rcases lt_trichotomy k k' with hlt | rfl | hlt
        · exact absurd hc (Bool.eq_false_iff.mp (hfirst k vma hlt hk))
        · rw [hk] at hk'
          cases hk'
          exact absurd hin.2 (by omega)
        · exact hlt
    · intro k vma hk hbefore
      by_cases judged : Judged BoundsAccepted (fun e => decide (Within e.2 va)) ms.areas.toList
      · apply judged_toList.mp judged k vma hk
        exact fun k' vma' hlt hk' => decide_eq_false (hbefore k' vma' hlt hk')
      · obtain ⟨err,herr⟩ := stops judged
        rw [herr] at hpage
        cases hpage
  · rintro ⟨hends,hbounds⟩
    have hfind : ms.findVmByVaddr va = ms.areas.toList.find? fun e => decide (Within e.2 va) :=
      find_contain_eq hends
    have judged : Judged BoundsAccepted (fun e => decide (Within e.2 va)) ms.areas.toList := by
      refine judged_toList.mpr fun k vma hk hbefore => hbounds k vma hk ?_
      exact fun k' vma' hlt hk' => of_decide_eq_false (hbefore k' vma' hlt hk')
    refine ⟨?_,?_⟩
    · rw [hfind]
      exact segmentAt_find ms.areas va
    · rw [hfind]
      exact returns judged

def adjacentPages : List Call :=
  [.mmap 0x10000 0x1000 3 0x32 0 0, .mmap 0x11000 0x1000 3 0x32 0 0]

def onlyAdjacent (areas : VmaRange) : Bool :=
  areas.toList.all fun e => e.1 == e.2.startVaddr && e.2.endVaddr == e.2.startVaddr + 0x1000 &&
    (e.1 == 0x10000 || e.1 == 0x11000)

theorem onlyAdjacent_segment (h : onlyAdjacent areas = true) {k : ℕ} (hk : areas[k]? = some vma) :
    k = vma.startVaddr ∧ vma.endVaddr = vma.startVaddr + 0x1000 ∧ (k = 0x10000 ∨ k = 0x11000) := by
  have hvma := all_toList h hk
  simpa [and_assoc] using hvma

theorem onlyAdjacent_aligned (h : onlyAdjacent areas = true) : Aligned areas := by
  intro k vma hk
  obtain ⟨hstart,hend,hkey⟩ := onlyAdjacent_segment h hk
  omega

theorem onlyAdjacent_apart (h : onlyAdjacent areas = true) : Apart areas := by
  intro k k' vma vma' hk hk' x hx hx'
  obtain ⟨hstart,hend,hkey⟩ := onlyAdjacent_segment h hk
  obtain ⟨hstart',hend',hkey'⟩ := onlyAdjacent_segment h hk'
  unfold Within at hx hx'
  omega

/-- Inside the second page both lookups find its segment. -/
theorem lookups_exact_inside : ∃ ms m₁ p m,
    MemorySet.newUser (bootMachine 64) = .ok ms m₁ ∧
    Runs Call.exec (fun _ _ _ => True) ⟨ms, ∅⟩ m₁ p m ∧ Aligned p.vm.areas ∧
    LookupsExact p.vm m 0x11800 := by
  have computed : fromBoot 64 adjacentPages (fun p _ => onlyAdjacent p.vm.areas) = true := by
    decide +kernel
  obtain ⟨-,-,ms,m₁,p,m,created,run,-,-,-,only⟩ :=
    fromBoot_elim (by decide) computed
  have aligned := onlyAdjacent_aligned only
  refine ⟨ms,m₁,p,m,created,run,aligned,?_⟩
  refine (lookups_exact_iff p.vm m aligned 0x11800).mpr ⟨?_,?_⟩
  · intro k vma hk hstart hend
    obtain ⟨-,hsize,-⟩ := onlyAdjacent_segment only hk
    have hwhole := aligned k vma hk
    omega
  · intro k vma hk _
    obtain ⟨hkey,hsize,hwhere⟩ := onlyAdjacent_segment only hk
    exact ⟨checkUserVa_of_le (by omega),checkUserVa_of_le (by omega)⟩

/-- At the border of two segments the lookup by address returns the lower one, which does not
have the address, and the lookup by page number the upper one. -/
theorem lookups_differ_at_border : ∃ ms m₁ p m lower upper m',
    MemorySet.newUser (bootMachine 64) = .ok ms m₁ ∧
    Runs Call.exec (fun _ _ _ => True) ⟨ms, ∅⟩ m₁ p m ∧ Aligned p.vm.areas ∧
    Apart p.vm.areas ∧
    p.vm.findVmByVaddr 0x11000 = some (0x10000, lower) ∧ ¬ Within lower 0x11000 ∧
    p.vm.findVmMutByVpn (0x11000 >>> pageSizeBits) m = .ok (some (0x11000, upper)) m' := by
  have computed : fromBoot 64 adjacentPages (fun p m => onlyAdjacent p.vm.areas &&
      decide ((p.vm.findVmByVaddr 0x11000).map Prod.fst = some 0x10000) &&
      returnsWith (p.vm.findVmMutByVpn (0x11000 >>> pageSizeBits)) m
        fun r _ => decide (r.map Prod.fst = some 0x11000)) = true := by
    decide +kernel
  obtain ⟨-,-,ms,m₁,p,m,created,run,-,-,-,computed⟩ :=
    fromBoot_elim (by decide) computed
  simp only [Bool.and_eq_true,decide_eq_true_eq] at computed
  obtain ⟨⟨only,hlower⟩,hupper⟩ := computed
  obtain ⟨r,m',hpage,hr⟩ := returnsWith_elim hupper
  obtain ⟨⟨k,lower⟩,hfound,rfl⟩ := Option.map_eq_some_iff.mp hlower
  obtain ⟨⟨k',upper⟩,rfl,rfl⟩ := Option.map_eq_some_iff.mp (of_decide_eq_true hr)
  obtain ⟨hstart,hend,-⟩ := onlyAdjacent_segment only (find?_toList_eq_some.mp hfound).1
  refine ⟨ms,m₁,p,m,lower,upper,m',created,run,onlyAdjacent_aligned only,
    onlyAdjacent_apart only,hfound,?_,hpage⟩
  intro hin
  have hlt := hin.2
  omega

end DuckOs.SegmentLookups
