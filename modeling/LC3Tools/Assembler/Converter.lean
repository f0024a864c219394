import LC3Tools.Sim.Registers

/-! `instr_maker.h` and `instr_converter.h` as the assembler compiles them: C has no
`assert` there, so the checks of the maker are void and only the words remain. -/
namespace LC3Tools.Converter
open InstrParser

section maker
variable (ib : Nat) (opcode num1 num2 num3 param val : BitVec 64)

def makeInstrRRR : BitVec 64 :=
  (opcode <<< operCodeMoveBit ib) ||| (num1 <<< regNum1MoveBit ib) |||
    (num2 <<< regNum2MoveBit ib) ||| num3

def makeInstrRRI : BitVec 64 :=
  (opcode <<< operCodeMoveBit ib) ||| (num1 <<< regNum1MoveBit ib) |||
    (num2 <<< regNum2MoveBit ib) ||| (val &&& lowMask (regNum2MoveBit ib))

def makeInstrRRPI : BitVec 64 :=
  (opcode <<< operCodeMoveBit ib) ||| (num1 <<< regNum1MoveBit ib) |||
    (num2 <<< regNum2MoveBit ib) ||| (param <<< paramAfterNum2MoveBit ib) |||
    (val &&& lowMask (paramAfterNum2MoveBit ib))

def makeInstrRRIWithFlag : BitVec 64 :=
  (opcode <<< operCodeMoveBit ib) ||| (num1 <<< regNum1MoveBit ib) |||
    (num2 <<< regNum2MoveBit ib) ||| (1#64 <<< (regNum2MoveBit ib - 1)) |||
    (val &&& lowMask (regNum2MoveBit ib - 1))

def makeInstrRR : BitVec 64 :=
  (opcode <<< operCodeMoveBit ib) ||| (num1 <<< regNum1MoveBit ib) |||
    (num2 <<< regNum2MoveBit ib)

def makeInstrRI : BitVec 64 :=
  (opcode <<< operCodeMoveBit ib) ||| (num1 <<< regNum1MoveBit ib) |||
    (val &&& lowMask (regNum1MoveBit ib))

def makeInstrR2 : BitVec 64 :=
  (opcode <<< operCodeMoveBit ib) ||| (num2 <<< regNum2MoveBit ib)

/-- The mask covers the flag bit too, so a negative offset sets that bit once more. -/
def makeInstrIWithFlag : BitVec 64 :=
  (opcode <<< operCodeMoveBit ib) ||| (1#64 <<< (operCodeMoveBit ib - 1)) |||
    (val &&& lowMask (operCodeMoveBit ib))

def makeInstrT : BitVec 64 :=
  (opcode <<< operCodeMoveBit ib) ||| (val &&& lowMask (operCodeMoveBit ib))

end maker

/-- `LC3_INSTR_CONVERT` from one instruction size to another. -/
def instrConvert (bcFrom bcTo : Nat) (instr : BitVec 64) : BitVec 64 :=
  let opcode := operCode bcFrom instr
  let num1 := regNum1 bcFrom instr
  let num2 := regNum2 bcFrom instr
  match Opcode.ofCode opcode.toNat with
  | .BR | .LD | .ST | .LDI | .STI | .LEA => makeInstrRI bcTo opcode num1 (intAfterNum1 bcFrom instr)
  | .ADD | .AND =>
    if intAfterNum2Flag bcFrom instr ≠ 0 then
      makeInstrRRIWithFlag bcTo opcode num1 num2 (intAfterNum2WithFlag bcFrom instr)
    else makeInstrRRR bcTo opcode num1 num2 (regNum3 instr)
  | .JSR =>
    if intAfterOperFlag bcFrom instr ≠ 0 then
      makeInstrIWithFlag bcTo opcode (intAfterOperWithFlag bcFrom instr)
    else makeInstrR2 bcTo opcode num2
  | .RTI | .LDR | .STR => makeInstrRRI bcTo opcode num1 num2 (intAfterNum2 bcFrom instr)
  | .RES =>
    makeInstrRRPI bcTo opcode num1 num2 (paramAfterNum2 bcFrom instr) (uintAfterParam bcFrom instr)
  | .NOT => makeInstrRR bcTo opcode num1 num2
  | .JMP => makeInstrR2 bcTo opcode num2
  | .TRAP => makeInstrT bcTo opcode (trap bcFrom instr)

end LC3Tools.Converter
