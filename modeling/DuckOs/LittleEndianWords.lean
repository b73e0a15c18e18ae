import Mathlib

/-! Machine words stored little-endian in a row of bytes. A row of bytes is a
function, so that filling and copying a whole row are single updates. -/
namespace DuckOs.LittleEndianWords

def leWord : ℕ → (ℕ → UInt8) → ℕ
  | 0, _ => 0
  | n + 1, b => (b 0).toNat + 256 * leWord n (fun k => b (k + 1))

def leByte (w k : ℕ) : UInt8 := UInt8.ofNat (w / 256 ^ k)

theorem leWord_congr {n : ℕ} {b c : ℕ → UInt8} (h : ∀ k < n, b k = c k) :
    leWord n b = leWord n c := by
  induction n generalizing b c with
  | zero => rfl
  | succ n ih =>
    rw [leWord,leWord,h 0 (by omega),ih fun k hk => h (k + 1) (by omega)]

theorem leWord_zero (n : ℕ) : leWord n (fun _ => 0) = 0 := by
  induction n with
  | zero => rfl
  | succ n ih => rw [leWord,ih]; rfl

theorem leWord_lt (n : ℕ) (b : ℕ → UInt8) : leWord n b < 256 ^ n := by
  induction n generalizing b with
  | zero => simp [leWord]
  | succ n ih =>
    have hb : (b 0).toNat < 256 := (b 0).toNat_lt
    have ht := ih fun k => b (k + 1)
    rw [leWord,pow_succ]
    omega

theorem leByte_succ (w k : ℕ) : leByte w (k + 1) = leByte (w / 256) k := by
  unfold leByte
  rw [pow_succ',Nat.div_div_eq_div_mul]

theorem leWord_leByte (n w : ℕ) : leWord n (leByte w) = w % 256 ^ n := by
  induction n generalizing w with
  | zero => simp [leWord,Nat.mod_one]
  | succ n ih =>
    have hb : (leByte w 0).toNat = w % 256 := by simp [leByte]
    have ht : leWord n (fun k => leByte w (k + 1)) = w / 256 % 256 ^ n := by
      rw [← ih (w / 256)]
      exact leWord_congr fun k _ => leByte_succ w k
    rw [leWord,hb,ht,pow_succ',Nat.mod_mul]

def leBytes (n w : ℕ) : List UInt8 := (List.range n).map (leByte w)

def readWord (row : ℕ → UInt8) (i : ℕ) : ℕ := leWord 8 fun k => row (8 * i + k)

def writeWord (row : ℕ → UInt8) (i w : ℕ) : ℕ → UInt8 := fun o =>
  if o / 8 = i then leByte w (o % 8) else row o

theorem readWord_lt (row : ℕ → UInt8) (i : ℕ) : readWord row i < 2 ^ 64 := by
  have h := leWord_lt 8 fun k => row (8 * i + k)
  exact h.trans_le (by norm_num)

@[simp] theorem readWord_zero (i : ℕ) : readWord (fun _ => 0) i = 0 := leWord_zero 8

theorem readWord_writeWord_same (row : ℕ → UInt8) (i w : ℕ) (hw : w < 2 ^ 64) :
    readWord (writeWord row i w) i = w := by
  have h : readWord (writeWord row i w) i = leWord 8 (leByte w) := by
    apply leWord_congr
    intro k hk
    have hd : (8 * i + k) / 8 = i := by omega
    have hm : (8 * i + k) % 8 = k := by omega
    simp only [writeWord,hd,hm,if_true]
  rw [h,leWord_leByte,Nat.mod_eq_of_lt (hw.trans_le (by norm_num))]

theorem readWord_writeWord_ne (row : ℕ → UInt8) (i j w : ℕ) (h : j ≠ i) :
    readWord (writeWord row i w) j = readWord row j := by
  apply leWord_congr
  intro k hk
  have hd : (8 * j + k) / 8 ≠ i := by omega
  simp only [writeWord,if_neg hd]

end DuckOs.LittleEndianWords
