import DuckOs.PageTableModel

namespace DuckOs.PageTableEntries
open AddressModel PermissionFlags PageTableModel

variable {w : ℕ}

theorem new_eq (p : ℕ) (fl : PTEFlags) :
    PageTableEntry.new p fl = p % 2 ^ 54 * 2 ^ 10 + fl.toNat := by
  have hs : (p <<< 10) % wordSize = (p % 2 ^ 54) <<< 10 := by
    rw [Nat.shiftLeft_eq,Nat.shiftLeft_eq]
    change p * 2 ^ 10 % 2 ^ 64 = _
    omega
  have hf : fl.toNat < 2 ^ 10 := fl.isLt.trans (by norm_num)
  rw [PageTableEntry.new,hs,← Nat.shiftLeft_add_eq_or_of_lt hf,Nat.shiftLeft_eq]

theorem new_lt (p : ℕ) (fl : PTEFlags) : PageTableEntry.new p fl < 2 ^ 64 := by
  rw [new_eq]
  omega

theorem ppn_eq (w : ℕ) : PageTableEntry.ppn w = w / 2 ^ 10 % 2 ^ 44 := by
  have hm : (1 <<< 44) - 1 = 2 ^ 44 - 1 := by decide
  rw [PageTableEntry.ppn,hm,Nat.and_two_pow_sub_one_eq_mod,Nat.shiftRight_eq_div_pow]

theorem flags_eq (w : ℕ) : PageTableEntry.flags w = BitVec.ofNat 9 w := by
  have hm : (1 <<< 9) - 1 = 2 ^ 9 - 1 := by decide
  rw [PageTableEntry.flags,hm,Nat.and_two_pow_sub_one_eq_mod]
  apply BitVec.eq_of_toNat_eq
  simp

theorem ppn_new {p : ℕ} (hp : p < 2 ^ 44) (fl : PTEFlags) :
    PageTableEntry.ppn (PageTableEntry.new p fl) = p := by
  rw [ppn_eq,new_eq]
  omega

theorem flags_new (p : ℕ) (fl : PTEFlags) :
    PageTableEntry.flags (PageTableEntry.new p fl) = fl := by
  rw [flags_eq,new_eq]
  apply BitVec.eq_of_toNat_eq
  rw [BitVec.toNat_ofNat]
  omega

theorem contains_valid (fl : PTEFlags) : contains fl PTEFlags.V = fl.getLsbD 0 := by
  revert fl
  decide

theorem isValid_eq (w : ℕ) : PageTableEntry.isValid w = w.testBit 0 := by
  rw [PageTableEntry.isValid,contains_valid,flags_eq,BitVec.getLsbD_ofNat]
  rfl

theorem isValid_zero : PageTableEntry.isValid 0 = false := by decide

theorem isValid_new (p : ℕ) (fl : PTEFlags) :
    PageTableEntry.isValid (PageTableEntry.new p fl) = fl.getLsbD 0 := by
  rw [PageTableEntry.isValid,contains_valid,flags_new]

theorem isValid_new_valid (p : ℕ) (fl : PTEFlags) :
    PageTableEntry.isValid (PageTableEntry.new p (fl ||| PTEFlags.V)) = true := by
  rw [isValid_new,BitVec.getLsbD_or]
  simp [PTEFlags.V]

theorem testBit_setBit (hw : w < 2 ^ 64) (i : ℕ) (hi : i < 64) (b : Bool) (k : ℕ) :
    (PageTableEntry.setBit w i b).testBit k = if k = i then b else w.testBit k := by
  have hm : wordSize - 1 = 2 ^ 64 - 1 := rfl
  cases b with
  | true =>
    simp only [PageTableEntry.setBit,if_true,Nat.testBit_or,Nat.one_shiftLeft,Nat.testBit_two_pow]
    by_cases hk : k = i
    · simp [hk]
    · simp [hk,Ne.symm hk]
  | false =>
    simp only [PageTableEntry.setBit,Bool.false_eq_true,if_false,Nat.testBit_and,Nat.testBit_xor,
      Nat.one_shiftLeft,Nat.testBit_two_pow,hm,Nat.testBit_two_pow_sub_one]
    by_cases hk : k = i
    · simp [hk,hi]
    · by_cases hb : k < 64
      · simp [hk,Ne.symm hk,hb]
      · have hz : w.testBit k = false := Nat.testBit_lt_two_pow
          (hw.trans_le (Nat.pow_le_pow_right (by omega) (by omega)))
        simp [hk,hz]

theorem setBit_lt (hw : w < 2 ^ 64) (i : ℕ) (hi : i < 64) (b : Bool) :
    PageTableEntry.setBit w i b < 2 ^ 64 := by
  apply Nat.lt_pow_two_of_testBit
  intro k hk
  rw [testBit_setBit hw i hi]
  have hz : w.testBit k = false := Nat.testBit_lt_two_pow
    (hw.trans_le (Nat.pow_le_pow_right (by omega) hk))
  rw [if_neg (by omega),hz]

section

variable (hw : w < 2 ^ 64) (fl : PTEFlags)
include hw

theorem testBit_replaceFlags (k : ℕ) : (PageTable.replaceFlags w fl).testBit k =
      if 1 ≤ k ∧ k ≤ 4 then fl.getLsbD k else w.testBit k := by
  have h1 := setBit_lt hw 1 (by omega) (fl.getLsbD 1)
  have h2 := setBit_lt h1 2 (by omega) (fl.getLsbD 2)
  have h3 := setBit_lt h2 3 (by omega) (fl.getLsbD 3)
  change (PageTableEntry.setBit _ 4 (fl.getLsbD 4)).testBit k = _
  rw [testBit_setBit h3 4 (by omega),testBit_setBit h2 3 (by omega),
    testBit_setBit h1 2 (by omega),testBit_setBit hw 1 (by omega)]
  by_cases hk : 1 ≤ k ∧ k ≤ 4
  · rw [if_pos hk]
    obtain rfl | rfl | rfl | rfl : k = 1 ∨ k = 2 ∨ k = 3 ∨ k = 4 := by omega
    all_goals rfl
  · rw [if_neg hk,if_neg (by omega),if_neg (by omega),if_neg (by omega),if_neg (by omega)]

theorem replaceFlags_lt : PageTable.replaceFlags w fl < 2 ^ 64 := by
  apply Nat.lt_pow_two_of_testBit
  intro k hk
  rw [testBit_replaceFlags hw,if_neg (by omega)]
  exact Nat.testBit_lt_two_pow (hw.trans_le (Nat.pow_le_pow_right (by omega) hk))

theorem isValid_replaceFlags :
    PageTableEntry.isValid (PageTable.replaceFlags w fl) = PageTableEntry.isValid w := by
  rw [isValid_eq,isValid_eq,testBit_replaceFlags hw,if_neg (by omega)]

theorem ppn_replaceFlags :
    PageTableEntry.ppn (PageTable.replaceFlags w fl) = PageTableEntry.ppn w := by
  apply Nat.eq_of_testBit_eq
  intro k
  simp only [PageTableEntry.ppn,Nat.testBit_and,Nat.testBit_shiftRight,testBit_replaceFlags hw]
  rw [if_neg (by omega)]

end

def accessBits : PTEFlags := PTEFlags.R ||| PTEFlags.W ||| PTEFlags.X ||| PTEFlags.U

theorem accessBits_getLsbD (k : ℕ) : accessBits.getLsbD k = decide (1 ≤ k ∧ k ≤ 4) := by
  by_cases hk : k < 9
  · interval_cases k <;> decide
  · rw [BitVec.getLsbD_of_ge _ _ (by omega)]
    symm
    rw [decide_eq_false_iff_not]
    omega

theorem flags_replaceFlags (hw : w < 2 ^ 64) (fl : PTEFlags) :
    PageTableEntry.flags (PageTable.replaceFlags w fl) =
      remove (PageTableEntry.flags w) accessBits ||| (fl &&& accessBits) := by
  rw [flags_eq,flags_eq]
  apply BitVec.eq_of_getLsbD_eq
  intro k hk
  simp only [remove,BitVec.getLsbD_or,BitVec.getLsbD_and,BitVec.getLsbD_not,BitVec.getLsbD_ofNat,
    testBit_replaceFlags hw,accessBits_getLsbD,hk]
  by_cases ha : 1 ≤ k ∧ k ≤ 4
  · simp [ha]
  · simp [ha]

end DuckOs.PageTableEntries
