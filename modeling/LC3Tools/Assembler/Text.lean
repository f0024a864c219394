import LC3Tools.BitFields
import Mathlib.Data.BitVec

/-! Bytes of a source file and the library functions the assembler applies to them, in
the C locale. A C string is the list of its bytes without the final zero. -/
namespace LC3Tools

abbrev Byte := BitVec 8

def byte (c : Char) : Byte := BitVec.ofNat 8 c.toNat

def bytes (s : String) : List Byte := s.toList.map byte

def isupper (b : Byte) : Bool := byte 'A' ≤ b && b ≤ byte 'Z'

def tolower (b : Byte) : Byte := if isupper b then b + 32 else b

def isspace (b : Byte) : Bool :=
  b = byte ' ' || (9 ≤ b && b ≤ 13)

def isdigit (b : Byte) : Bool := byte '0' ≤ b && b ≤ byte '9'

/-- What a digit stands for in a base up to 16. -/
def digitValue (b : Byte) : Nat :=
  if isdigit b then b.toNat - 48
  else if byte 'a' ≤ tolower b && tolower b ≤ byte 'f' then (tolower b).toNat - 87
  else 16

def isDigitOf (base : Nat) (b : Byte) : Bool := digitValue b < base

def digitsValue (base : Nat) (ds : List Byte) : Nat :=
  ds.foldl (fun v d => v * base + digitValue d) 0

/-- The number `strtol` reads, before it is fitted into a `long`; none if it
recognises no digit and leaves its end pointer where it was. -/
def strtol (base : Nat) (s : List Byte) : Option Int :=
  let s := s.dropWhile isspace
  let negative := s.head? = some (byte '-')
  let s := if negative ∨ s.head? = some (byte '+') then s.tail else s
  -- an optional 0x, which counts only before a digit
  let s := match s with
    | z :: x :: d :: rest =>
      if base = 16 ∧ z = byte '0' ∧ tolower x = byte 'x' ∧ isDigitOf 16 d then d :: rest else s
    | _ => s
  let digits := s.takeWhile (isDigitOf base)
  if digits = [] then none
  else some (if negative then -digitsValue base digits else digitsValue base digits)

end LC3Tools
