import LC3Tools.Stdio.Blocks

/-! `printf` of `stdio.asm`, and what its formats stand for. -/
namespace LC3Tools.Stdio
open Emit StateTransition

namespace Printf

/-- The labels of `stdio.asm` up to the end of `printf`, without their prefix. -/
inductive Label where
  | percent | c | d | s | b | h | o | x | ascii | minus | buf
  | printf | loop | checkchar | char | checkstr | checkdec | checkhex | checkoct | checkbin
  | num | decpos | divloop | lastdigit | decstring | error | done
  deriving DecidableEq

open Item Inst

def source : List (Item Label) := [
  label .percent, fill (-37),
  label .c, fill (-99),
  label .d, fill (-100),
  label .s, fill (-115),
  label .b, fill (-98),
  label .h, fill (-104),
  label .o, fill (-111),
  label .x, fill (-120),
  label .ascii, fill 48, fill 49, fill 50, fill 51, fill 52, fill 53, fill 54, fill 55, fill 56,
    fill 57,
  fill 0x61, fill 0x62, fill 0x63, fill 0x64, fill 0x65, fill 0x66,
  label .minus, fill 45,
  label .buf, blkw 18,
  label .printf,
  inst (addImm 6 6 (-2)),
  inst (str 7 6 0),
  inst (addImm 6 6 (-1)),
  inst (str 5 6 0),
  inst (addImm 5 6 (-1)),
  inst (addImm 6 6 (-1)),
  inst (str 4 6 0),
  inst (addImm 5 5 4),
  inst (ldr 4 5 0),
  label .loop,
  inst (ldr 0 4 0),
  inst (addImm 0 0 0),
  inst (br false true false .done),
  inst (addImm 2 0 0),
  inst (ld 1 .percent),
  inst (add 2 2 1),
  inst (br true false true .char),
  inst (addImm 4 4 1),
  inst (ldr 0 4 0),
  inst (addImm 2 0 0),
  inst (ld 3 .h),
  inst (add 2 2 3),
  inst (br true false true .checkchar),
  inst (addImm 4 4 1),
  inst (ldr 0 4 0),
  label .checkchar,
  inst (addImm 2 0 0),
  inst (ld 3 .c),
  inst (add 2 2 3),
  inst (br true false true .checkstr),
  inst (addImm 5 5 1),
  inst (ldr 0 5 0),
  label .char,
  inst (trap .out),
  inst (addImm 4 4 1),
  inst (br true true true .loop),
  label .checkstr,
  inst (addImm 2 0 0),
  inst (ld 7 .s),
  inst (add 2 2 7),
  inst (br true false true .checkdec),
  inst (addImm 5 5 1),
  inst (ldr 0 5 0),
  inst (trap .puts),
  inst (addImm 4 4 1),
  inst (br true true true .loop),
  label .checkdec,
  inst (addImm 2 0 0),
  inst (ld 7 .d),
  inst (add 2 2 7),
  inst (br true false true .checkhex),
  inst (andImm 2 2 0),
  inst (addImm 2 2 (-10)),
  inst (br true true true .num),
  label .checkhex,
  inst (addImm 2 0 0),
  inst (ld 7 .x),
  inst (add 2 2 7),
  inst (br true false true .checkoct),
  inst (andImm 2 2 0),
  inst (addImm 2 2 (-16)),
  inst (br true true true .num),
  label .checkoct,
  inst (addImm 2 0 0),
  inst (ld 7 .o),
  inst (add 2 2 7),
  inst (br true false true .checkbin),
  inst (andImm 2 2 0),
  inst (addImm 2 2 (-8)),
  inst (br true true true .num),
  label .checkbin,
  inst (addImm 2 0 0),
  inst (ld 7 .b),
  inst (add 2 2 7),
  inst (br true false true .char),
  inst (andImm 2 2 0),
  inst (addImm 2 2 (-2)),
  label .num,
  inst (lea 7 .buf),
  inst (addImm 7 7 15),
  inst (addImm 7 7 1),
  inst (addImm 5 5 1),
  inst (ldr 0 5 0),
  inst (addImm 0 0 0),
  inst (br false true true .decpos),
  inst (not 0 0),
  inst (addImm 0 0 1),
  label .decpos,
  inst (andImm 3 3 0),
  inst (addImm 3 3 (-1)),
  label .divloop,
  inst (addImm 3 3 1),
  inst (add 0 0 2),
  inst (br false true true .divloop),
  inst (addImm 3 3 0),
  inst (br false true false .lastdigit),
  inst (lea 1 .ascii),
  inst (add 1 1 0),
  inst (not 2 2),
  inst (add 1 1 2),
  inst (addImm 1 1 1),
  inst (not 2 2),
  inst (ldr 1 1 0),
  inst (str 1 7 0),
  inst (addImm 7 7 (-1)),
  inst (addImm 0 3 0),
  inst (br true true true .decpos),
  label .lastdigit,
  inst (lea 1 .ascii),
  inst (add 1 1 0),
  inst (not 2 2),
  inst (add 1 1 2),
  inst (addImm 1 1 1),
  inst (not 2 2),
  inst (ldr 1 1 0),
  inst (str 1 7 0),
  inst (ldr 0 5 0),
  inst (addImm 0 0 0),
  inst (br false true true .decstring),
  inst (ld 0 .minus),
  inst (addImm 7 7 (-1)),
  inst (str 0 7 0),
  label .decstring,
  inst (addImm 0 7 0),
  inst (trap .puts),
  inst (addImm 4 4 1),
  inst (br true true true .loop),
  label .error,
  label .done,
  inst (ldr 4 6 0),
  inst (addImm 6 6 1),
  inst (ldr 5 6 0),
  inst (addImm 6 6 1),
  inst (ldr 7 6 0),
  inst (addImm 6 6 1),
  inst ret]

/-- How many words of the digit buffer are written. -/
def width : Nat := 17

/-- The last word of the buffer is never written. -/
def routine : Routine Label where
  items := source
  scratch := fun k => index source .buf ≤ k && k < index source .buf + width
  reaches := by decide +kernel
  data := by
    have all : ∀ k < (cells source).length,
      (decide (index source .buf ≤ k) && decide (k < index source .buf + width)) →
        (cells source)[k]? = some (.word 0) := by decide +kernel
    exact fun k inside scratch => ⟨0, all k inside scratch⟩

/-! What a format stands for. -/

/-- A piece of a format: a character to print, or what is printed of an argument. -/
inductive Piece where
  | literal (c : Word)
  | char
  | string
  | number (base : Nat)
  deriving DecidableEq

/-- By the character behind the percent sign. -/
def conversion (c : Word) : Piece :=
  if c = 99 then .char
  else if c = 115 then .string
  else if c = 100 then .number 10
  else if c = 120 then .number 16
  else if c = 111 then .number 8
  else if c = 98 then .number 2
  else .literal c

/-- None where a percent sign, or one with an h, has nothing behind it. -/
def parse : List Word → Option (List Piece)
  | [] => some []
  | c :: rest =>
    if c ≠ 37 then (parse rest).map (.literal c :: ·)
    else match rest with
      | [] => none
      | c :: rest =>
        if c ≠ 104 then (parse rest).map (conversion c :: ·)
        else match rest with
          | [] => none
          | c :: rest => (parse rest).map (conversion c :: ·)

/-- The sign and the digits of the magnitude. -/
def numeral (base : Nat) (w : Word) : List Byte :=
  (if w.toInt < 0 then [byte '-'] else []) ++ (Nat.toDigits base w.toInt.natAbs).map byte

theorem magnitude_small (w : Word) : w.toInt.natAbs ≤ 0x8000 := by
  have := BitVec.toInt_lt (x := w)
  have := BitVec.le_toInt w
  omega

theorem magnitude (w : Word) : BitVec.ofNat 16 w.toInt.natAbs = if w.msb then -w else w := by
  rw [BitVec.msb_eq_toInt]
  by_cases below : w.toInt < 0
  · rw [decide_eq_true below, if_pos rfl, ← BitVec.ofInt_natCast, Int.ofNat_natAbs_of_nonpos
      (Int.le_of_lt below),
      BitVec.ofInt_neg, BitVec.ofInt_toInt]
  · rw [decide_eq_false below, if_neg Bool.false_ne_true, ← BitVec.ofInt_natCast,
      Int.natAbs_of_nonneg (Int.not_lt.mp below), BitVec.ofInt_toInt]

/-- What is printed of a piece. An argument for a string is its address. -/
def Piece.render (mem : Word → Word) : Piece → List Word → Option (List Byte)
  | literal c, _ => some [character c]
  | char, a :: _ => some [character a]
  | string, a :: _ => (stringAt mem a).map fun text => text.map character
  | number base, a :: _ => some (numeral base a)
  | _, [] => none

/-- How many arguments a piece takes. -/
def Piece.takes : Piece → Nat
  | literal _ => 0
  | _ => 1

/-- What is printed of every piece, none where the arguments do not match. -/
def render (mem : Word → Word) : List Piece → List Word → Option (List (List Byte))
  | [], _ => some []
  | piece :: pieces, args => do
    let text ← piece.render mem args
    let texts ← render mem pieces (args.drop piece.takes)
    some (text :: texts)

example : parse [97, 37, 104, 100, 37, 37] = some
  [.literal 97, .number 10, .literal 37] := by decide

end Printf

end LC3Tools.Stdio
