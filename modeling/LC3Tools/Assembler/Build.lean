import Mathlib.Data.BitVec

/-! The four builds of the assembler, `types.h`. A `long` is a 64-bit word. -/
namespace LC3Tools.Assembler

inductive Build where
  | bit16 | bit32 | bit32Wide | bit64Wide
  deriving DecidableEq, Repr

namespace Build

/-- The size of `lc3_register_type`. -/
def registerBits : Build → Nat
  | bit16 => 16
  | bit32 => 32
  | bit32Wide => 32
  | bit64Wide => 64

def instrBitCount : Build → Nat
  | bit16 => 16
  | bit32 => 16
  | bit32Wide => 32
  | bit64Wide => 64

def loadRegBitCount : Build → Nat
  | bit16 => 16
  | bit32 => 32
  | bit32Wide => 32
  | bit64Wide => 32

def valueMask : Build → BitVec 64
  | bit16 => 0xffff
  | bit32 => 0xffffffff
  | bit32Wide => 0xffffffff
  | bit64Wide => 0xffffffffffffffff

/-- `SWAP_16` of a `long`, whose `>>` copies the sign, narrowed to the register type. -/
def swap16 (val : BitVec 64) : BitVec 16 := ((val <<< 8) ||| val.sshiftRight 8).setWidth 16

def swap32 (val : BitVec 64) : BitVec 32 :=
  (((val <<< 24) &&& 0xff000000) ||| ((val <<< 8) &&& 0x00ff0000) |||
    ((val.sshiftRight 8) &&& 0x0000ff00) ||| ((val.sshiftRight 24) &&& 0x000000ff)).setWidth 32

/-- `LC3_SWAP`. -/
def swap (b : Build) (val : BitVec 64) : BitVec b.registerBits :=
  match b with
  | bit16 => swap16 val
  | bit32 => swap32 val
  | bit32Wide => swap32 val
  | bit64Wide => val

def handles64BitLongs (b : Build) (v : BitVec 64) : BitVec 64 :=
  match b with
  | bit16 => if 0x10000 > v.toInt ∧ 0x8000 ≤ v.toInt then v ||| BitVec.ofInt 64 (-65536) else v
  | _ => v

def checkOutOfRange (b : Build) (v : BitVec 64) (bits : Nat) : Bool :=
  match b with
  | bit16 => v.toInt < -2 ^ (bits - 1) ∨ v.toInt ≥ 2 ^ (bits - 1)
  | _ => false

def checkOutOfRangeUnsigned (b : Build) (v : BitVec 64) (bits : Nat) : Bool :=
  match b with
  | bit16 => v.toInt ≥ 2 ^ bits
  | _ => false

end Build

end LC3Tools.Assembler
