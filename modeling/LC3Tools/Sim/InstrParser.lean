import LC3Tools.BitFields
import Mathlib.Data.BitVec

/-! The field macros of `instr_parser.h`. Every macro computes in `unsigned long`
whatever the type of the instruction word, so a field is a 64-bit word here and the
word that holds the instruction is widened by the caller. `ib` is the macros'
`instr_bc`; operation codes, register numbers and parameters have the widths that
`instr_config.h` fixes for every build. -/
namespace LC3Tools.InstrParser

def operCodeBitCount : Nat := 4
def regNumBitCount : Nat := 3
def paramBitCount : Nat := 3

/-- `(I1 << bit_count) - 1`. -/
def lowMask (bitCount : Nat) : BitVec 64 := (1#64 <<< bitCount) - 1

def intValue (instr : BitVec 64) (bitCount : Nat) : BitVec 64 :=
  ((instr &&& lowMask bitCount) ^^^ (1#64 <<< (bitCount - 1))) - (1#64 <<< (bitCount - 1))

def operCodeMoveBit (ib : Nat) : Nat := ib - operCodeBitCount
def regNum1MoveBit (ib : Nat) : Nat := operCodeMoveBit ib - regNumBitCount
def regNum2MoveBit (ib : Nat) : Nat := regNum1MoveBit ib - regNumBitCount
def paramAfterNum2MoveBit (ib : Nat) : Nat := regNum2MoveBit ib - paramBitCount

def operCode (ib : Nat) (instr : BitVec 64) : BitVec 64 :=
  (instr >>> operCodeMoveBit ib) &&& lowMask operCodeBitCount

def intAfterOper (ib : Nat) (instr : BitVec 64) : BitVec 64 :=
  intValue instr (operCodeMoveBit ib)

def intAfterOperFlag (ib : Nat) (instr : BitVec 64) : BitVec 64 :=
  instr &&& (1#64 <<< (operCodeMoveBit ib - 1))

def intAfterOperWithFlag (ib : Nat) (instr : BitVec 64) : BitVec 64 :=
  intValue instr (operCodeMoveBit ib - 1)

def regNum1 (ib : Nat) (instr : BitVec 64) : BitVec 64 :=
  (instr >>> regNum1MoveBit ib) &&& lowMask regNumBitCount

def intAfterNum1 (ib : Nat) (instr : BitVec 64) : BitVec 64 :=
  intValue instr (regNum1MoveBit ib)

def regNum2 (ib : Nat) (instr : BitVec 64) : BitVec 64 :=
  (instr >>> regNum2MoveBit ib) &&& lowMask regNumBitCount

def regNum3 (instr : BitVec 64) : BitVec 64 := instr &&& lowMask regNumBitCount

def intAfterNum2 (ib : Nat) (instr : BitVec 64) : BitVec 64 :=
  intValue instr (regNum2MoveBit ib)

def intAfterNum2Flag (ib : Nat) (instr : BitVec 64) : BitVec 64 :=
  instr &&& (1#64 <<< (regNum2MoveBit ib - 1))

def intAfterNum2WithFlag (ib : Nat) (instr : BitVec 64) : BitVec 64 :=
  intValue instr (regNum2MoveBit ib - 1)

/-- The vector of TRAP is read with the signed macro over all bits after the code. -/
def trap (ib : Nat) (instr : BitVec 64) : BitVec 64 := intAfterOper ib instr

def paramAfterNum2 (ib : Nat) (instr : BitVec 64) : BitVec 64 :=
  (instr >>> paramAfterNum2MoveBit ib) &&& lowMask paramBitCount

def uintAfterParam (ib : Nat) (instr : BitVec 64) : BitVec 64 :=
  instr &&& lowMask (paramAfterNum2MoveBit ib)

theorem lowMask_toNat {k : Nat} (narrow : k < 64) : (lowMask k).toNat = 2 ^ k - 1 := by
  have one : (1#64 <<< k).toNat = 2 ^ k := by
    rw [BitVec.toNat_shiftLeft, BitVec.toNat_ofNat, Nat.shiftLeft_eq]
    simpa using Nat.pow_lt_pow_right (by decide) narrow
  have positive : 0 < 2 ^ k := Nat.two_pow_pos k
  have bound : 2 ^ k < 2 ^ 64 := Nat.pow_lt_pow_right (by decide) narrow
  rw [lowMask, BitVec.toNat_sub, one]
  simp
  omega

theorem mask_toNat (i : BitVec 64) {k : Nat} (narrow : k < 64) :
    (i &&& lowMask k).toNat = i.toNat % 2 ^ k := by
  rw [BitVec.toNat_and, lowMask_toNat narrow, Nat.and_two_pow_sub_one_eq_mod]

end LC3Tools.InstrParser
