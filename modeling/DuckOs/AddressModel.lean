import DuckOs.ExecutionRules

/-! Address constants and conversions of the memory manager. An address is a
natural number below `2 ^ 64`; additions that can leave that range wrap, as they
do in the release build. -/
namespace DuckOs.AddressModel
open ExecutionRules

/-- Ways in which the kernel stops. Frame exhaustion is kept apart from the
other failed `unwrap`s, and a lock taken twice is waited for without end. -/
inductive Panic where
  | assertion
  | unwrapNone
  | outOfFrames
  | explicit
  | todo
  | deadlock
  deriving DecidableEq, Repr

def wordSize : ℕ := 2 ^ 64

/-- `usize` addition of the release build. -/
def wrappingAdd (a b : ℕ) : ℕ := (a + b) % wordSize

def phyToVirtOffset : ℕ := 0xffff_ffff_0000_0000
def phyToVirtPpnOffset : ℕ := 0xffff_ffff_0000_0
def pageSizeBits : ℕ := 0xc
def pageSize : ℕ := 0x1000
def sv39Vpn1 : ℕ := 12
def sv39Vpn2 : ℕ := 21
def sv39Vpn3 : ℕ := 30
def paddrHigh : ℕ := 0x8800_0000
def paddrLow : ℕ := 0x8020_0000
def vaddrHigh : ℕ := 0x8800_0000 + phyToVirtOffset
def vaddrLow : ℕ := 0x8020_0000 + phyToVirtOffset
def lowLimit : ℕ := 0x0
def userUpperLimit : ℕ := 0xffff_ffff
def userStackSize : ℕ := 0x800000
def userStackTop : ℕ := 0xFFFF_F000
def virtio0 : ℕ := 0x1000_1000 + phyToVirtOffset
def kernelPtePos : ℕ := 510
def kernelMmioPtePos : ℕ := 508
def mmapTop : ℕ := 0xff5f_f000
def mmapBottom : ℕ := 0xfe5f_f000
def dlInterpOffset : ℕ := 0x8000_0000

/-- `!(PAGE_SIZE - 1)` on 64-bit words. -/
def pageMask : ℕ := wordSize - pageSize

def vaddrIsAlign (vaddr : ℕ) : Bool := (vaddr &&& (pageSize - 1)) == 0

/-- The condition asserted by `check_kernel_va`. -/
def checkKernelVa (vaddr : ℕ) : Bool :=
  (decide (vaddrLow ≤ vaddr) && decide (vaddr ≤ vaddrHigh)) ||
    (decide (virtio0 ≤ vaddr) && decide (vaddr ≤ virtio0 + 0x4000))

/-- The condition asserted by `check_user_va`; the kernel windows pass too. -/
def checkUserVa (vaddr : ℕ) : Bool :=
  (decide (vaddrLow ≤ vaddr) && decide (vaddr ≤ vaddrHigh)) ||
    (decide (virtio0 ≤ vaddr) && decide (vaddr ≤ virtio0 + 0x4000)) ||
    (decide (lowLimit ≤ vaddr) && decide (vaddr ≤ userUpperLimit))

def checkPaddr (paddr : ℕ) : Bool := decide (paddrLow ≤ paddr) && decide (paddr ≤ paddrHigh)

/-- The bits of a page number shifted out at the top are lost. -/
def vpnShift (vpn : ℕ) : ℕ := (vpn <<< pageSizeBits) % wordSize

def ppnToPhys (ppn : ℕ) : ℕ := (ppn <<< pageSizeBits) % wordSize

/-- The three table indices of an address, root first. -/
def pteVpn (vaddr : ℕ) : ℕ × ℕ × ℕ :=
  ((vaddr >>> sv39Vpn3) &&& 0x1ff, (vaddr >>> sv39Vpn2) &&& 0x1ff, (vaddr >>> sv39Vpn1) &&& 0x1ff)

section Conversions

variable {σ : Type}

def assertThat (b : Bool) : EStateM Panic σ Unit :=
  if b then pure () else throw .assertion

def physToPpn (paddr : ℕ) : EStateM Panic σ ℕ := do
  assertThat (checkPaddr paddr)
  pure (paddr >>> pageSizeBits)

def virtToVpn (vaddr : ℕ) : EStateM Panic σ ℕ := do
  assertThat (checkUserVa vaddr)
  pure (vaddr >>> pageSizeBits)

def alignDown (vaddr : ℕ) : EStateM Panic σ ℕ := do
  assertThat (checkUserVa vaddr)
  pure (vaddr &&& pageMask)

def alignUp (vaddr : ℕ) : EStateM Panic σ ℕ := do
  assertThat (checkUserVa vaddr)
  pure (wrappingAdd vaddr (pageSize - 1) &&& pageMask)

def vpnToVirt (vpn : ℕ) : EStateM Panic σ ℕ := do
  assertThat (checkUserVa (vpnShift vpn))
  pure (vpnShift vpn)

def vaddrOffset (vaddr : ℕ) : EStateM Panic σ ℕ := do
  assertThat (checkUserVa vaddr)
  pure (vaddr &&& (pageSize - 1))

def vaddrToPteVpn (vaddr : ℕ) : EStateM Panic σ (ℕ × ℕ × ℕ) := do
  assertThat (checkUserVa vaddr)
  pure (pteVpn vaddr)

end Conversions

theorem checkUserVa_iff (vaddr : ℕ) : checkUserVa vaddr = true ↔
    (0xffffffff80200000 ≤ vaddr ∧ vaddr ≤ 0xffffffff88000000) ∨
    (0xffffffff10001000 ≤ vaddr ∧ vaddr ≤ 0xffffffff10005000) ∨ vaddr ≤ 0xffffffff := by
  simp only [checkUserVa,Bool.or_eq_true,Bool.and_eq_true,decide_eq_true_eq]
  simp only [vaddrLow,vaddrHigh,virtio0,lowLimit,userUpperLimit,phyToVirtOffset]
  omega

theorem checkKernelVa_iff (vaddr : ℕ) : checkKernelVa vaddr = true ↔
    (0xffffffff80200000 ≤ vaddr ∧ vaddr ≤ 0xffffffff88000000) ∨
    (0xffffffff10001000 ≤ vaddr ∧ vaddr ≤ 0xffffffff10005000) := by
  simp only [checkKernelVa,Bool.or_eq_true,Bool.and_eq_true,decide_eq_true_eq]
  simp only [vaddrLow,vaddrHigh,virtio0,phyToVirtOffset]

theorem checkPaddr_iff (paddr : ℕ) :
    checkPaddr paddr = true ↔ 0x80200000 ≤ paddr ∧ paddr ≤ 0x88000000 := by
  simp only [checkPaddr,Bool.and_eq_true,decide_eq_true_eq]
  simp only [paddrLow,paddrHigh]

theorem checkUserVa_lt {vaddr : ℕ} (h : checkUserVa vaddr = true) : vaddr < 2 ^ 64 := by
  have := (checkUserVa_iff vaddr).mp h
  omega

theorem checkUserVa_of_le {vaddr : ℕ} (h : vaddr ≤ 0xffffffff) : checkUserVa vaddr = true :=
  (checkUserVa_iff vaddr).mpr (.inr (.inr h))

theorem and_pageMask {a : ℕ} (h : a < 2 ^ 64) : a &&& pageMask = a / 4096 * 4096 := by
  have hm : pageMask = (2 ^ 52 - 1) <<< 12 := by decide
  have hd : a / 4096 * 4096 = (a >>> 12) <<< 12 := by
    rw [Nat.shiftLeft_eq,Nat.shiftRight_eq_div_pow]
  rw [hm,hd]
  apply Nat.eq_of_testBit_eq
  intro k
  simp only [Nat.testBit_and,Nat.testBit_shiftLeft,Nat.testBit_shiftRight,
    Nat.testBit_two_pow_sub_one]
  by_cases hk : 12 ≤ k
  · have he : 12 + (k - 12) = k := by omega
    by_cases hb : k < 64
    · have : k - 12 < 52 := by omega
      simp [hk,he,this]
    · have : a.testBit k = false := Nat.testBit_lt_two_pow
        (h.trans_le (Nat.pow_le_pow_right (by omega) (by omega)))
      simp [he,this]
  · simp [hk]

theorem vaddrIsAlign_iff (vaddr : ℕ) : vaddrIsAlign vaddr = true ↔ vaddr % 4096 = 0 := by
  have h : vaddr &&& (pageSize - 1) = vaddr % 4096 := Nat.and_two_pow_sub_one_eq_mod vaddr 12
  rw [vaddrIsAlign,h,beq_iff_eq]

theorem vpnShift_eq (vpn : ℕ) : vpnShift vpn = vpn * 4096 % 2 ^ 64 := by
  rw [vpnShift,Nat.shiftLeft_eq]
  rfl

theorem vpnShift_of_lt {vpn : ℕ} (h : vpn < 2 ^ 52) : vpnShift vpn = vpn * 4096 := by
  rw [vpnShift_eq]
  omega

theorem ppnToPhys_of_lt {ppn : ℕ} (h : ppn < 2 ^ 52) : ppnToPhys ppn = ppn * 4096 := by
  rw [ppnToPhys,Nat.shiftLeft_eq]
  change ppn * 4096 % 2 ^ 64 = _
  omega

theorem pteVpn_eq (vaddr : ℕ) :
    pteVpn vaddr = (vaddr / 2 ^ 30 % 512, vaddr / 2 ^ 21 % 512, vaddr / 2 ^ 12 % 512) := by
  have hm : ∀ a : ℕ, a &&& 0x1ff = a % 512 := fun a => Nat.and_two_pow_sub_one_eq_mod a 9
  simp only [pteVpn,hm,Nat.shiftRight_eq_div_pow,sv39Vpn1,sv39Vpn2,sv39Vpn3]

theorem wrappingAdd_of_lt {a b : ℕ} (h : a + b < 2 ^ 64) : wrappingAdd a b = a + b :=
  Nat.mod_eq_of_lt h

section Results

variable {σ : Type}

theorem assertThat_eq (b : Bool) (s : σ) :
    (assertThat b : EStateM Panic σ Unit) s = if b then .ok () s else .error .assertion s := by
  cases b <;> rfl

theorem guarded_eq {α : Type} (b : Bool) (a : α) (s : σ) :
    (assertThat b >>= fun _ => pure a : EStateM Panic σ α) s =
      if b then .ok a s else .error .assertion s := by
  cases b <;> rfl

theorem holds_assertThat {α : Type} {b : Bool} {s : σ} {f : Unit → EStateM Panic σ α}
    {Q : α → σ → Prop} {E : Panic → σ → Prop} (hq : b = true → Holds (f ()) s Q E)
    (he : b = false → E .assertion s) : Holds (assertThat b >>= f) s Q E := by
  cases b with
  | true => exact hq rfl
  | false => exact he rfl

theorem virtToVpn_eq (vaddr : ℕ) (s : σ) : (virtToVpn vaddr : EStateM Panic σ ℕ) s =
    if checkUserVa vaddr then .ok (vaddr / 4096) s else .error .assertion s := by
  rw [virtToVpn,guarded_eq,Nat.shiftRight_eq_div_pow]
  rfl

theorem alignDown_eq (vaddr : ℕ) (s : σ) : (alignDown vaddr : EStateM Panic σ ℕ) s =
    if checkUserVa vaddr then .ok (vaddr / 4096 * 4096) s else .error .assertion s := by
  rw [alignDown,guarded_eq]
  split_ifs with h
  · rw [and_pageMask (checkUserVa_lt h)]
  · rfl

theorem alignUp_eq (vaddr : ℕ) (s : σ) : (alignUp vaddr : EStateM Panic σ ℕ) s =
    if checkUserVa vaddr then .ok ((vaddr + 4095) / 4096 * 4096) s else .error .assertion s := by
  rw [alignUp,guarded_eq]
  split_ifs with h
  · have hb := (checkUserVa_iff vaddr).mp h
    have hw : wrappingAdd vaddr (pageSize - 1) = vaddr + 4095 := wrappingAdd_of_lt (by
      change vaddr + 4095 < 2 ^ 64
      omega)
    rw [hw,and_pageMask (by omega)]
  · rfl

theorem vpnToVirt_eq (vpn : ℕ) (s : σ) : (vpnToVirt vpn : EStateM Panic σ ℕ) s =
    if checkUserVa (vpnShift vpn) then .ok (vpnShift vpn) s else .error .assertion s :=
  guarded_eq _ _ s

theorem vaddrOffset_eq (vaddr : ℕ) (s : σ) : (vaddrOffset vaddr : EStateM Panic σ ℕ) s =
    if checkUserVa vaddr then .ok (vaddr % 4096) s else .error .assertion s := by
  have h : vaddr &&& (pageSize - 1) = vaddr % 4096 := Nat.and_two_pow_sub_one_eq_mod vaddr 12
  rw [vaddrOffset,guarded_eq,h]

theorem vaddrToPteVpn_eq (vaddr : ℕ) (s : σ) :
    (vaddrToPteVpn vaddr : EStateM Panic σ (ℕ × ℕ × ℕ)) s =
      if checkUserVa vaddr then .ok (pteVpn vaddr) s else .error .assertion s :=
  guarded_eq _ _ s

theorem physToPpn_eq (paddr : ℕ) (s : σ) : (physToPpn paddr : EStateM Panic σ ℕ) s =
    if checkPaddr paddr then .ok (paddr / 4096) s else .error .assertion s := by
  rw [physToPpn,guarded_eq,Nat.shiftRight_eq_div_pow]
  rfl

end Results

end DuckOs.AddressModel
