import LC3Tools.Assembler.Converter
import LC3Tools.BitFields

/-! The makers of `instr_maker.h` with their checks, and the reading of a word with the
macros of `instr_parser.h`. The operands of a maker are C integers of any value; a check
compares them with a mask, and the word holds what is left under the masks of the maker. -/
namespace LC3Tools.Maker
open InstrParser Converter

/-- The instructions of the makers, each with the operands it is given. -/
inductive Instr where
  | BR (flagPzn val : BitVec 64)
  | ADD_I (num1 num2 val : BitVec 64)
  | ADD_R (num1 num2 num3 : BitVec 64)
  | LD (num1 val : BitVec 64)
  | ST (num1 val : BitVec 64)
  | JSR_I (val : BitVec 64)
  | JSR_R (num2 : BitVec 64)
  | AND_I (num1 num2 val : BitVec 64)
  | AND_R (num1 num2 num3 : BitVec 64)
  | LDR (num1 num2 val : BitVec 64)
  | STR (num1 num2 val : BitVec 64)
  | RTI (num1 num2 val : BitVec 64)
  | NOT (num1 num2 : BitVec 64)
  | LDI (num1 val : BitVec 64)
  | STI (num1 val : BitVec 64)
  | JMP (num2 : BitVec 64)
  | RES (num1 num2 param val : BitVec 64)
  | LEA (num1 val : BitVec 64)
  | TRAP (val : BitVec 64)
  deriving DecidableEq

/-- The layouts of a word, one for each of the makers all others are defined by. -/
inductive Operands where
  | RRR (num1 num2 num3 : BitVec 64)
  | RRI (num1 num2 val : BitVec 64)
  | RRPI (num1 num2 param val : BitVec 64)
  | RRIWithFlag (num1 num2 val : BitVec 64)
  | RR (num1 num2 : BitVec 64)
  | RI (num1 val : BitVec 64)
  | R2 (num2 : BitVec 64)
  | IWithFlag (val : BitVec 64)
  | T (val : BitVec 64)

namespace Instr

def opcode : Instr → Opcode
  | BR .. => .BR | ADD_I .. | ADD_R .. => .ADD | LD .. => .LD | ST .. => .ST
  | JSR_I _ | JSR_R _ => .JSR | AND_I .. | AND_R .. => .AND | LDR .. => .LDR | STR .. => .STR
  | RTI .. => .RTI | NOT .. => .NOT | LDI .. => .LDI | STI .. => .STI | JMP _ => .JMP
  | RES .. => .RES | LEA .. => .LEA | TRAP _ => .TRAP

def operands : Instr → Operands
  | BR flagPzn val => .RI flagPzn val
  | ADD_I num1 num2 val => .RRIWithFlag num1 num2 val
  | ADD_R num1 num2 num3 => .RRR num1 num2 num3
  | LD num1 val => .RI num1 val
  | ST num1 val => .RI num1 val
  | JSR_I val => .IWithFlag val
  | JSR_R num2 => .R2 num2
  | AND_I num1 num2 val => .RRIWithFlag num1 num2 val
  | AND_R num1 num2 num3 => .RRR num1 num2 num3
  | LDR num1 num2 val => .RRI num1 num2 val
  | STR num1 num2 val => .RRI num1 num2 val
  | RTI num1 num2 val => .RRI num1 num2 val
  | NOT num1 num2 => .RR num1 num2
  | LDI num1 val => .RI num1 val
  | STI num1 val => .RI num1 val
  | JMP num2 => .R2 num2
  | RES num1 num2 param val => .RRPI num1 num2 param val
  | LEA num1 val => .RI num1 val
  | TRAP val => .T val

end Instr

/-- The four bits of an operation code. -/
def opcodeBits : Opcode → BitVec 64
  | .BR => 0b0000 | .ADD => 0b0001 | .LD => 0b0010 | .ST => 0b0011 | .JSR => 0b0100
  | .AND => 0b0101 | .LDR => 0b0110 | .STR => 0b0111 | .RTI => 0b1000 | .NOT => 0b1001
  | .LDI => 0b1010 | .STI => 0b1011 | .JMP => 0b1100 | .RES => 0b1101 | .LEA => 0b1110
  | .TRAP => 0b1111

section
variable (ib : Nat)

def Operands.make (opcode : BitVec 64) : Operands → BitVec 64
  | RRR num1 num2 num3 => makeInstrRRR ib opcode num1 num2 num3
  | RRI num1 num2 val => makeInstrRRI ib opcode num1 num2 val
  | RRPI num1 num2 param val => makeInstrRRPI ib opcode num1 num2 param val
  | RRIWithFlag num1 num2 val => makeInstrRRIWithFlag ib opcode num1 num2 val
  | RR num1 num2 => makeInstrRR ib opcode num1 num2
  | RI num1 val => makeInstrRI ib opcode num1 val
  | R2 num2 => makeInstrR2 ib opcode num2
  | IWithFlag val => makeInstrIWithFlag ib opcode val
  | T val => makeInstrT ib opcode val

def Instr.make (x : Instr) : BitVec 64 := x.operands.make ib (opcodeBits x.opcode)

/-- `LC3_CHECK_REGNUM`. -/
def checkRegnum (num : BitVec 64) : Bool := num &&& ~~~lowMask regNumBitCount = 0

/-- `LC3_CHECK_INT_WITH_MASK` looks at the magnitude of a number. -/
def checkIntWithMask (val mask : BitVec 64) : Bool :=
  (if val.toInt < 0 then -val else val) &&& ~~~mask = 0

def checkTrap (val : BitVec 64) : Bool := val &&& ~~~lowMask (operCodeMoveBit ib) = 0

/-- The `VALUE_ASSERT`s of a maker. The operation code is a constant and passes its own. -/
def Operands.checks : Operands → Bool
  | RRR num1 num2 num3 => checkRegnum num1 && checkRegnum num2 && checkRegnum num3
  -- the mask for an offset behind two registers leaves out the top bit of its field
  | RRI num1 num2 val =>
    checkRegnum num1 && checkRegnum num2 && checkIntWithMask val (lowMask (regNum2MoveBit ib - 1))
  | RRPI num1 num2 param val =>
    checkRegnum num1 && checkRegnum num2 && checkIntWithMask param (lowMask paramBitCount) &&
      checkIntWithMask val (lowMask (paramAfterNum2MoveBit ib))
  | RRIWithFlag num1 num2 val =>
    checkRegnum num1 && checkRegnum num2 && checkIntWithMask val (lowMask (regNum2MoveBit ib - 1))
  | RR num1 num2 => checkRegnum num1 && checkRegnum num2
  | RI num1 val => checkRegnum num1 && checkIntWithMask val (lowMask (regNum1MoveBit ib))
  | R2 num2 => checkRegnum num2
  | IWithFlag val => checkIntWithMask val (lowMask (operCodeMoveBit ib - 1))
  | T val => checkTrap ib val

def Instr.checks (x : Instr) : Bool := x.operands.checks ib

/-- What `ExecuteOneInstruction` reads from a word. -/
def parse (i : BitVec 64) : Instr :=
  let num1 := regNum1 ib i
  let num2 := regNum2 ib i
  match Opcode.ofCode (operCode ib i).toNat with
  | .BR => .BR num1 (intAfterNum1 ib i)
  | .ADD =>
    if intAfterNum2Flag ib i ≠ 0 then .ADD_I num1 num2 (intAfterNum2WithFlag ib i)
    else .ADD_R num1 num2 (regNum3 i)
  | .LD => .LD num1 (intAfterNum1 ib i)
  | .ST => .ST num1 (intAfterNum1 ib i)
  | .JSR => if intAfterOperFlag ib i ≠ 0 then .JSR_I (intAfterOperWithFlag ib i) else .JSR_R num2
  | .AND =>
    if intAfterNum2Flag ib i ≠ 0 then .AND_I num1 num2 (intAfterNum2WithFlag ib i)
    else .AND_R num1 num2 (regNum3 i)
  | .LDR => .LDR num1 num2 (intAfterNum2 ib i)
  | .STR => .STR num1 num2 (intAfterNum2 ib i)
  | .RTI => .RTI num1 num2 (intAfterNum2 ib i)
  | .NOT => .NOT num1 num2
  | .LDI => .LDI num1 (intAfterNum1 ib i)
  | .STI => .STI num1 (intAfterNum1 ib i)
  | .JMP => .JMP num2
  | .RES => .RES num1 num2 (paramAfterNum2 ib i) (uintAfterParam ib i)
  | .LEA => .LEA num1 (intAfterNum1 ib i)
  | .TRAP => .TRAP (trap ib i)

end

end LC3Tools.Maker
