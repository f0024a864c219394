import LC3Tools.Sim.Vm

/-! The two decoders read the same fields of a 16-bit word: the C++ macros compute
in 64 bits and truncate, `vm.c` computes in 16 bits from the start. -/
namespace LC3Tools
open InstrParser Vm

theorem setWidth_sub_of_le {v w : Nat} (x y : BitVec v) (narrow : w ≤ v) :
    (x - y).setWidth w = x.setWidth w - y.setWidth w := by
  rw [BitVec.sub_eq_add_neg, BitVec.setWidth_add _ _ narrow, BitVec.setWidth_neg_of_le narrow,
    ← BitVec.sub_eq_add_neg]

theorem widen_toNat (x : BitVec 16) : (x.setWidth 64).toNat = x.toNat := by
  have bound : x.toNat < 2 ^ 64 := Nat.lt_of_lt_of_le x.isLt (by decide)
  rw [BitVec.toNat_setWidth, Nat.mod_eq_of_lt bound]

theorem widen_shift (x : BitVec 16) (n : Nat) :
    x.setWidth 64 >>> n = (x >>> n).setWidth 64 := by
  apply BitVec.eq_of_toNat_eq
  rw [widen_toNat, BitVec.toNat_ushiftRight, widen_toNat, BitVec.toNat_ushiftRight]

theorem widen_mask (x m : BitVec 16) : x.setWidth 64 &&& m.setWidth 64 = (x &&& m).setWidth 64 :=
  BitVec.setWidth_and.symm

section
variable (instr : BitVec 16)

theorem intValue_narrow (n : Nat) (mask : (lowMask n).setWidth 16 = (1#16 <<< n) - 1)
    (top : (1#64 <<< (n - 1)).setWidth 16 = 1#16 <<< (n - 1)) :
    (intValue (instr.setWidth 64) n).setWidth 16 = sextend instr n := by
  have same : (instr.setWidth 64).setWidth 16 = instr := by simp
  simp only [intValue, sextend, setWidth_sub_of_le _ _ (show 16 ≤ 64 by decide),
    BitVec.setWidth_xor, BitVec.setWidth_and, same, mask, top]

@[simp] theorem intAfterNum1_narrow :
    (intAfterNum1 16 (instr.setWidth 64)).setWidth 16 = sextend instr 9 :=
  intValue_narrow instr 9 (by decide) (by decide)

@[simp] theorem intAfterNum2_narrow :
    (intAfterNum2 16 (instr.setWidth 64)).setWidth 16 = sextend instr 6 :=
  intValue_narrow instr 6 (by decide) (by decide)

@[simp] theorem intAfterNum2WithFlag_narrow :
    (intAfterNum2WithFlag 16 (instr.setWidth 64)).setWidth 16 = sextend instr 5 :=
  intValue_narrow instr 5 (by decide) (by decide)

@[simp] theorem intAfterOperWithFlag_narrow :
    (intAfterOperWithFlag 16 (instr.setWidth 64)).setWidth 16 = sextend instr 11 :=
  intValue_narrow instr 11 (by decide) (by decide)

@[simp] theorem trap_narrow : (trap 16 (instr.setWidth 64)).setWidth 16 = sextend instr 12 :=
  intValue_narrow instr 12 (by decide) (by decide)

@[simp] theorem operCode_narrow :
    (operCode 16 (instr.setWidth 64)).toNat = (instr >>> 12).toNat := by
  have mask : lowMask 4 = (15#16).setWidth 64 := by decide
  have whole : (instr >>> 12) &&& 15#16 = instr >>> 12 := by
    apply BitVec.eq_of_toNat_eq
    have small : (instr >>> 12).toNat < 2 ^ 4 := by
      have := instr.isLt
      rw [BitVec.toNat_ushiftRight, Nat.shiftRight_eq_div_pow]
      omega
    rw [BitVec.toNat_and, show (15#16).toNat = 2 ^ 4 - 1 from rfl,
      Nat.and_two_pow_sub_one_eq_mod, Nat.mod_eq_of_lt small]
  simp only [operCode, operCodeMoveBit, operCodeBitCount]
  rw [mask, widen_shift, widen_mask, widen_toNat, whole]

theorem regField_narrow (n : Nat) :
    ((instr.setWidth 64 >>> n) &&& lowMask 3).toNat = ((instr >>> n) &&& 0b111).toNat := by
  have mask : lowMask 3 = (0b111#16).setWidth 64 := by decide
  rw [mask, widen_shift, widen_mask, widen_toNat]
  rfl

@[simp] theorem regNum1_narrow :
    (regNum1 16 (instr.setWidth 64)).toNat = ((instr >>> 9) &&& 0b111).toNat :=
  regField_narrow instr 9

@[simp] theorem regIndex_regNum1_narrow :
    regIndex (regNum1 16 (instr.setWidth 64)) = regIndex ((instr >>> 9) &&& 0b111) :=
  congrArg (Fin.ofNat 8) (regField_narrow instr 9)

@[simp] theorem regIndex_regNum2_narrow :
    regIndex (regNum2 16 (instr.setWidth 64)) = regIndex ((instr >>> 6) &&& 0b111) :=
  congrArg (Fin.ofNat 8) (regField_narrow instr 6)

@[simp] theorem regIndex_regNum3_narrow :
    regIndex (regNum3 (instr.setWidth 64)) = regIndex (instr &&& 0b111) :=
  congrArg (Fin.ofNat 8) (regField_narrow instr 0)

theorem bitTest_narrow (n : Nat) (mask : 1#64 <<< n = (1#16 <<< n).setWidth 64) :
    instr.setWidth 64 &&& (1#64 <<< n) = 0 ↔ instr &&& (1#16 <<< n) = 0 := by
  rw [mask, widen_mask]
  constructor
  · intro h
    have low := congrArg BitVec.toNat h
    rw [widen_toNat] at low
    exact BitVec.eq_of_toNat_eq low
  · intro h
    rw [h]
    rfl

@[simp] theorem intAfterNum2Flag_narrow :
    intAfterNum2Flag 16 (instr.setWidth 64) = 0 ↔ instr &&& (1#16 <<< 5) = 0 :=
  bitTest_narrow instr 5 (by decide)

@[simp] theorem intAfterOperFlag_narrow :
    intAfterOperFlag 16 (instr.setWidth 64) = 0 ↔ instr &&& (1#16 <<< 11) = 0 :=
  bitTest_narrow instr 11 (by decide)

end

theorem trapvect_of_signed {instr : BitVec 16} (h : sextend instr 12 = 0x20) :
    instr &&& 0xff = 0x20 := by
  have flipped : (instr &&& 0xfff) ^^^ 0x800 = 0x820#16 := by
    have := congrArg (· + 0x800#16) h
    simpa [sextend, BitVec.sub_add_cancel] using this
  have low : instr &&& 0xfff = 0x020#16 := by
    have := congrArg (· ^^^ 0x800#16) flipped
    simpa [BitVec.xor_assoc] using this
  have split : instr &&& 0xff = (instr &&& 0xfff) &&& 0xff := by
    rw [BitVec.and_assoc]
    rfl
  rw [split, low]
  rfl

end LC3Tools
