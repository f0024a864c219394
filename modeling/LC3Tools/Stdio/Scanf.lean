import LC3Tools.Stdio.Blocks

/-! `scanf` of `stdio.asm`, and what it takes from the input for a number. -/
namespace LC3Tools.Stdio.Scanf
open Emit

/-- The labels of `scanf`, without their prefix. -/
inductive Label where
  | percent | c | d | s | zero | nine | minus | buf
  | scanf | loop | checkd | scannum | checkedlower | checkedupper | numdone | notminus
  | calc | mulloop | calcdone | notneg | str | scanstrloop | scanstrdone | matchchar | error | done
  deriving DecidableEq

open Item Inst

def source : List (Item Label) := [
  label .percent, fill (-37),
  label .c, fill (-99),
  label .d, fill (-100),
  label .s, fill (-115),
  label .zero, fill (-48),
  label .nine, fill (-57),
  label .minus, fill (-45),
  label .buf, blkw 6,
  label .scanf,
  inst (addImm 6 6 (-2)),
  inst (str 7 6 0),
  inst (addImm 6 6 (-1)),
  inst (str 5 6 0),
  inst (addImm 5 6 (-1)),
  inst (addImm 6 6 (-1)),
  inst (str 4 6 0),
  inst (addImm 5 5 4),
  inst (ldr 4 5 0),
  label .loop,
  inst (ldr 2 4 0),
  inst (addImm 2 2 0),
  inst (br false true false .done),
  inst (ld 1 .percent),
  inst (addImm 0 2 0),
  inst (add 0 0 1),
  inst (br true false true .matchchar),
  inst (addImm 4 4 1),
  inst (ldr 2 4 0),
  inst (ld 1 .c),
  inst (addImm 0 2 0),
  inst (add 0 0 1),
  inst (br true false true .checkd),
  inst (addImm 5 5 1),
  inst (ldr 2 5 0),
  inst (trap .getc),
  inst (trap .out),
  inst (str 0 2 0),
  inst (addImm 4 4 1),
  inst (br true true true .loop),
  label .checkd,
  inst (ld 1 .d),
  inst (addImm 0 2 0),
  inst (add 0 0 1),
  inst (br true false true .str),
  inst (addImm 6 6 (-1)),
  inst (str 4 6 0),
  inst (lea 4 .buf),
  inst (ld 2 .zero),
  inst (ld 1 .nine),
  label .scannum,
  inst (trap .getc),
  inst (trap .out),
  inst (str 0 4 0),
  inst (add 0 2 0),
  inst (br false true true .checkedlower),
  inst (ldr 0 4 0),
  inst (ld 7 .minus),
  inst (add 0 0 7),
  inst (br false true false .checkedlower),
  inst (lea 0 .buf),
  inst (not 0 0),
  inst (addImm 0 0 1),
  inst (add 0 4 0),
  inst (br false true false .scannum),
  inst (addImm 4 4 (-1)),
  inst (br true true true .numdone),
  label .checkedlower,
  inst (ldr 0 4 0),
  inst (add 0 1 0),
  inst (br true true false .checkedupper),
  inst (lea 0 .buf),
  inst (not 0 0),
  inst (addImm 0 0 1),
  inst (add 0 4 0),
  inst (br false true false .scannum),
  inst (addImm 4 4 (-1)),
  inst (br true true true .numdone),
  label .checkedupper,
  inst (lea 0 .buf),
  inst (addImm 0 0 5),
  inst (not 0 0),
  inst (addImm 0 0 1),
  inst (add 0 4 0),
  inst (br false true false .numdone),
  inst (addImm 4 4 1),
  inst (br true true true .scannum),
  label .numdone,
  inst (lea 7 .buf),
  inst (ld 0 .minus),
  inst (ld 1 .buf),
  inst (add 0 0 1),
  inst (br true false true .notminus),
  inst (addImm 7 7 1),
  label .notminus,
  inst (andImm 2 2 0),
  label .calc,
  inst (ldr 0 7 0),
  inst (ld 1 .zero),
  inst (add 0 0 1),
  inst (add 2 2 0),
  inst (not 1 7),
  inst (addImm 1 1 1),
  inst (add 1 4 1),
  inst (br false true false .calcdone),
  inst (addImm 0 2 0),
  inst (andImm 1 1 0),
  inst (addImm 1 1 9),
  label .mulloop,
  inst (add 2 2 0),
  inst (addImm 1 1 (-1)),
  inst (br true false true .mulloop),
  inst (addImm 7 7 1),
  inst (br true true true .calc),
  label .calcdone,
  inst (ld 0 .minus),
  inst (ld 1 .buf),
  inst (add 0 0 1),
  inst (br true false true .notneg),
  inst (not 2 2),
  inst (addImm 2 2 1),
  label .notneg,
  inst (addImm 5 5 1),
  inst (ldr 0 5 0),
  inst (str 2 0 0),
  inst (ldr 4 6 0),
  inst (addImm 6 6 1),
  inst (addImm 4 4 1),
  inst (br true true true .loop),
  label .str,
  inst (ld 1 .s),
  inst (addImm 0 2 0),
  inst (add 0 0 1),
  inst (br true false true .error),
  inst (addImm 6 6 (-1)),
  inst (str 4 6 0),
  inst (addImm 5 5 1),
  inst (ldr 4 5 0),
  label .scanstrloop,
  inst (trap .getc),
  inst (trap .out),
  inst (str 0 4 0),
  inst (addImm 4 4 1),
  inst (addImm 0 0 (-10)),
  inst (br true false true .scanstrloop),
  label .scanstrdone,
  inst (andImm 0 0 0),
  inst (str 0 4 (-1)),
  inst (ldr 4 6 0),
  inst (addImm 6 6 1),
  inst (addImm 4 4 1),
  inst (br true true true .loop),
  label .matchchar,
  inst (addImm 4 4 1),
  inst (trap .getc),
  inst (trap .out),
  inst (not 0 0),
  inst (addImm 0 0 1),
  inst (add 0 0 2),
  inst (br false true false .loop),
  label .error,
  label .done,
  inst (ldr 4 6 0),
  inst (addImm 6 6 1),
  inst (ldr 5 6 0),
  inst (addImm 6 6 1),
  inst (ldr 7 6 0),
  inst (addImm 6 6 1),
  inst ret]

/-- How many characters the buffer takes. -/
def capacity : Nat := 6

def routine : Routine Label where
  items := source
  scratch := fun k => index source .buf ≤ k && k < index source .buf + capacity
  reaches := by decide +kernel
  data := by
    have all : ∀ k < (cells source).length,
      (decide (index source .buf ≤ k) && decide (k < index source .buf + capacity)) →
        (cells source)[k]? = some (.word 0) := by decide +kernel
    exact fun k inside scratch => ⟨0, all k inside scratch⟩

/-! What `%d` takes from the input. -/

/-- The characters of a number. A minus sign may stand anywhere. -/
def accepted (c : Byte) : Bool := isdigit c || c = byte '-'

/-- The characters that the buffer holds at the end and the rest of the input. A character that is
not accepted is passed over in front of a number and taken behind it, unless the buffer is full
before. None where the input does not last. -/
def scan : List Byte → List Byte → Option (List Byte × List Byte)
  | _, [] => none
  | taken, c :: rest =>
    if accepted c then
      if taken.length + 1 = capacity then some (taken ++ [c], rest) else scan (taken ++ [c]) rest
    else if taken = [] then scan [] rest
    else some (taken, rest)

/-- The digits behind a minus sign are added up, and what stands between them as well. -/
def value (taken : List Byte) : Word :=
  let sum := fun (digits : List Byte) =>
    digits.foldl (fun v c => v * 10 + (c.setWidth 16 - 48)) 0
  if taken.head? = some (byte '-') then -sum taken.tail else sum taken

end LC3Tools.Stdio.Scanf
