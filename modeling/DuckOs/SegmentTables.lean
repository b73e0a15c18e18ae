import DuckOs.RangeRemoval

namespace DuckOs.SegmentTables
open VirtMemoryModel RangeRemoval

def Keyed (areas : VmaRange) : Prop :=
  ∀ (k : ℕ) (vma : VirtMemoryAddr), areas[k]? = some vma → vma.startVaddr = k

def Aligned (areas : VmaRange) : Prop :=
  ∀ (k : ℕ) (vma : VirtMemoryAddr), areas[k]? = some vma →
    4096 ∣ vma.startVaddr ∧ 4096 ∣ vma.endVaddr

def Apart (areas : VmaRange) : Prop :=
  ∀ (k k' : ℕ) (vma vma' : VirtMemoryAddr), areas[k]? = some vma → areas[k']? = some vma' →
    ∀ x, Within vma x → Within vma' x → k = k'

/-- A segment without addresses does not lie strictly inside another. -/
def NoneInside (areas : VmaRange) : Prop :=
  ∀ (k k' : ℕ) (vma vma' : VirtMemoryAddr), areas[k]? = some vma → areas[k']? = some vma' →
    vma.endVaddr ≤ vma.startVaddr →
      ¬ (vma'.startVaddr < vma.startVaddr ∧ vma.startVaddr < vma'.endVaddr)

instance (vma : VirtMemoryAddr) (x : ℕ) : Decidable (Within vma x) :=
  inferInstanceAs (Decidable (_ ∧ _))

theorem start_not_inside {areas : VmaRange} (apart : Apart areas) (outside : NoneInside areas)
    {k k' : ℕ} {vma vma' : VirtMemoryAddr} (hk : areas[k]? = some vma)
    (hk' : areas[k']? = some vma')
    (hin : vma'.startVaddr < vma.startVaddr ∧ vma.startVaddr < vma'.endVaddr) : k = k' := by
  by_cases hempty : vma.endVaddr ≤ vma.startVaddr
  · exact (outside k k' vma vma' hk hk' hempty hin).elim
  · exact apart k k' vma vma' hk hk' vma.startVaddr ⟨le_rfl,by omega⟩ ⟨hin.1.le,hin.2⟩

end DuckOs.SegmentTables
