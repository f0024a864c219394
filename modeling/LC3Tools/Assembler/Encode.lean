import LC3Tools.Assembler.Fields
import LC3Tools.Assembler.SecondPass
import LC3Tools.Sim.Convert
import LC3Tools.Sim.Loader

/-! The words of the statements with an operand field. What the assembler packs is the
word of the makers for the value cut down to its field, in the 16-bit layout, and every
build stores a word that its own field macros read alike. -/
namespace LC3Tools.Assembler
open Flex InstrParser Converter BitFields Maker Sim

variable {b : Build}

/-- The form of a number behind the operation. -/
def numberForm : Op → Option Operands
  | .ADD | .AND | .LDR | .STR | .RTI | .SLL | .SRA => some .RRI
  | .LD | .LDI | .LEA | .ST | .STI => some .RI
  | .BR | .JSR | .TRAP => some .I
  | _ => none

/-- The form of a label as a distance from the PC. -/
def labelForm : Op → Option Operands
  | .LD | .LDI | .LEA | .ST | .STI => some .RL
  | .BR | .JSR => some .L
  | _ => none

def operandBits : Op → Nat
  | .ADD | .AND => 5
  | .LDR | .STR | .RTI => 6
  | .JSR => 11
  | .TRAP => 8
  | .SLL | .SRA => 3
  | _ => 9

def isUnsigned : Op → Bool
  | .TRAP | .SLL | .SRA => true
  | _ => false

def operandText (form : Operands) (opstr : List Byte) : List Byte :=
  match form with
  | .RRI => operand3 opstr
  | .RI | .RL => operand2 opstr
  | _ => operand1 opstr

/-- The value of the operand, and what reading it does to the state. -/
def readOperand (stale : Stale) (s : AsmState b) (form : Operands) (opstr : List Byte) :
    BitVec 64 × AsmState b :=
  let text := operandText form opstr
  match form with
  | .RL | .L => findLabel s text (operandBits s.op)
  | _ =>
    if isUnsigned s.op then readUnsignedInto s text (operandBits s.op) (stale s.pass s.lineNum)
    else readSignedInto s text (operandBits s.op) (stale s.pass s.lineNum)

/-- What is left of the value in the field. -/
def fieldValue (op : Op) (v : BitVec 64) : BitVec 64 :=
  if isUnsigned op then v &&& mask 64 (operandBits op) else signed (operandBits op) v

/-- The instruction with the value as its operand. -/
def encoded (op : Op) (ccode r1 r2 v : BitVec 64) : Option Instr :=
  match op with
  | .ADD => some (.ADD_I r1 r2 v)
  | .AND => some (.AND_I r1 r2 v)
  | .BR => some (.BR (ccode >>> 9) v)
  | .JSR => some (.JSR_I v)
  | .LD => some (.LD r1 v)
  | .LDI => some (.LDI r1 v)
  | .LEA => some (.LEA r1 v)
  | .ST => some (.ST r1 v)
  | .STI => some (.STI r1 v)
  | .LDR => some (.LDR r1 r2 v)
  | .STR => some (.STR r1 r2 v)
  | .RTI => some (.RTI r1 r2 v)
  | .TRAP => some (.TRAP v)
  | .SLL => some (.RES r1 r2 dtuSLLI v)
  | .SRA => some (.RES r1 r2 dtuSRAI v)
  | _ => none

section packed
variable {r1 r2 ccode val : BitVec 64}

theorem signed_and_mask {w k : Nat} (positive : 0 < k) (narrow : k < w) (v : BitVec w) :
    signed k v &&& mask w k = v &&& mask w k := by
  have small : v.toNat % 2 ^ k < 2 ^ k := Nat.mod_lt _ (Nat.two_pow_pos k)
  have modulus : (v.toNat : Int) % ((2 ^ k : Nat) : Int) = ((v.toNat % 2 ^ k : Nat) : Int) := by
    simp
  have powers : (2 : Int) ^ k = ((2 ^ k : Nat) : Int) := by simp
  have residue : ((signed k v).toNat % 2 ^ k : Nat) = (v.toNat % 2 ^ k : Nat) := by
    have divides : ((2 ^ k : Nat) : Int) ∣ ((2 ^ w : Nat) : Int) :=
      Int.natCast_dvd_natCast.mpr (Nat.pow_dvd_pow 2 (by omega))
    have same : (((signed k v).toNat : Int)) % ((2 ^ k : Nat) : Int) =
        (signed k v).toInt % ((2 ^ k : Nat) : Int) := by
      obtain ⟨c, whole⟩ := divides
      rw [BitVec.toInt_eq_toNat_cond]
      split
      · rfl
      · rw [whole, Int.sub_mul_emod_self_left]
    have value := signed_toInt positive narrow v
    rw [powers, modulus] at value
    apply Int.ofNat_inj.mp
    rw [Int.natCast_emod, same, value]
    split
    · exact Int.emod_eq_of_lt (by omega) (by omega)
    · rw [Int.sub_emod_right]
      exact Int.emod_eq_of_lt (by omega) (by omega)
  apply BitVec.eq_of_toNat_eq
  rw [and_mask_toNat narrow, and_mask_toNat narrow, residue]

theorem make_ADD_I : (Instr.ADD_I r1 r2 (signed 5 val)).make 16 =
    0x1020#64 ||| ((r1 <<< 9) ||| (r2 <<< 6)) ||| (val &&& 0x1f#64) := by
  have low := signed_and_mask (k := 5) (by decide) (by decide) val
  have code : 0x1020#64 = 0x1000#64 ||| 0x20#64 := by decide
  change (0x1000#64 ||| (r1 <<< 9) ||| (r2 <<< 6) ||| 0x20#64) ||| (signed 5 val &&& mask 64 5) =
    0x1020#64 ||| ((r1 <<< 9) ||| (r2 <<< 6)) ||| (val &&& mask 64 5)
  rw [low, code]
  ac_rfl

theorem make_AND_I : (Instr.AND_I r1 r2 (signed 5 val)).make 16 =
    0x5020#64 ||| ((r1 <<< 9) ||| (r2 <<< 6)) ||| (val &&& 0x1f#64) := by
  have low := signed_and_mask (k := 5) (by decide) (by decide) val
  have code : 0x5020#64 = 0x5000#64 ||| 0x20#64 := by decide
  change (0x5000#64 ||| (r1 <<< 9) ||| (r2 <<< 6) ||| 0x20#64) ||| (signed 5 val &&& mask 64 5) =
    0x5020#64 ||| ((r1 <<< 9) ||| (r2 <<< 6)) ||| (val &&& mask 64 5)
  rw [low, code]
  ac_rfl

theorem make_offset9 (opcode : BitVec 64) : makeInstrRI 16 opcode r1 (signed 9 val) =
    (opcode <<< 12) ||| (r1 <<< 9) ||| (val &&& 0x1ff#64) := by
  have low := signed_and_mask (k := 9) (by decide) (by decide) val
  change (opcode <<< 12) ||| (r1 <<< 9) ||| (signed 9 val &&& mask 64 9) =
    (opcode <<< 12) ||| (r1 <<< 9) ||| (val &&& mask 64 9)
  rw [low]

theorem make_offset6 (opcode : BitVec 64) : makeInstrRRI 16 opcode r1 r2 (signed 6 val) =
    (opcode <<< 12) ||| ((r1 <<< 9) ||| (r2 <<< 6)) ||| (val &&& 0x3f#64) := by
  have low := signed_and_mask (k := 6) (by decide) (by decide) val
  change (opcode <<< 12) ||| (r1 <<< 9) ||| (r2 <<< 6) ||| (signed 6 val &&& mask 64 6) =
    (opcode <<< 12) ||| ((r1 <<< 9) ||| (r2 <<< 6)) ||| (val &&& mask 64 6)
  rw [low]
  ac_rfl

theorem ccode_field (inside : ccode &&& ~~~0x0e00#64 = 0) :
    (ccode >>> 9) <<< 9 = ccode ∧ (ccode >>> 9).toNat < 8 := by
  have low : ccode &&& mask 64 9 = 0 := by
    have apart : mask 64 9 = ~~~0x0e00#64 &&& mask 64 9 := by decide
    rw [apart, ← BitVec.and_assoc, inside]
    rfl
  have high : ccode &&& ~~~mask 64 12 = 0 := by
    have apart : ~~~mask 64 12 = ~~~0x0e00#64 &&& ~~~mask 64 12 := by decide
    rw [apart, ← BitVec.and_assoc, inside]
    rfl
  have small := (and_not_mask (k := 12) (by decide)).mp high
  have whole := congrArg BitVec.toNat low
  rw [and_mask_toNat (by decide)] at whole
  have none : ccode.toNat % 2 ^ 9 = 0 := whole
  constructor
  · apply BitVec.eq_of_toNat_eq
    simp only [BitVec.toNat_shiftLeft, BitVec.toNat_ushiftRight, Nat.shiftLeft_eq,
      Nat.shiftRight_eq_div_pow]
    omega
  · rw [BitVec.toNat_ushiftRight, Nat.shiftRight_eq_div_pow]
    omega

theorem make_BR (inside : ccode &&& ~~~0x0e00#64 = 0) :
    (Instr.BR (ccode >>> 9) (signed 9 val)).make 16 = ccode ||| (val &&& 0x1ff#64) := by
  change makeInstrRI 16 0#64 (ccode >>> 9) (signed 9 val) = _
  rw [make_offset9, (ccode_field inside).1, BitVec.zero_shiftLeft, BitVec.zero_or]

theorem make_JSR_I : (Instr.JSR_I (signed 11 val)).make 16 = 0x4800#64 ||| (val &&& 0x7ff#64) := by
  have low := signed_and_mask (k := 11) (by decide) (by decide) val
  have more : mask 64 12 = mask 64 11 ||| 0x800#64 := by decide
  have code : 0x4800#64 = 0x4000#64 ||| 0x800#64 := by decide
  have flag : 0x800#64 ||| (signed 11 val &&& 0x800#64) = 0x800#64 := by
    apply BitVec.eq_of_getLsbD_eq
    intro i bound
    simp only [BitVec.getLsbD_or, BitVec.getLsbD_and]
    cases (0x800#64).getLsbD i <;> simp
  change 0x4000#64 ||| 0x800#64 ||| (signed 11 val &&& mask 64 12) =
    0x4800#64 ||| (val &&& mask 64 11)
  calc 0x4000#64 ||| 0x800#64 ||| (signed 11 val &&& mask 64 12)
      = 0x4000#64 ||| (0x800#64 ||| (signed 11 val &&& 0x800#64)) |||
        (signed 11 val &&& mask 64 11) := by
        rw [more, BitVec.and_or_distrib_left]
        ac_rfl
    _ = 0x4800#64 ||| (val &&& mask 64 11) := by rw [flag, low, code]

theorem make_TRAP : (Instr.TRAP (val &&& mask 64 8)).make 16 = 0xf000#64 ||| (val &&& 0xff#64) := by
  have less : mask 64 8 &&& mask 64 12 = mask 64 8 := by decide
  change 0xf000#64 ||| (val &&& mask 64 8 &&& mask 64 12) = 0xf000#64 ||| (val &&& mask 64 8)
  rw [BitVec.and_assoc, less]

theorem make_RES (param : BitVec 64) : (Instr.RES r1 r2 param (val &&& mask 64 3)).make 16 =
    0xd000#64 ||| ((r1 <<< 9) ||| (r2 <<< 6)) ||| (param <<< 3) ||| (val &&& 0x7#64) := by
  have same : mask 64 3 &&& mask 64 3 = mask 64 3 := BitVec.and_self
  change (0xd000#64 ||| (r1 <<< 9) ||| (r2 <<< 6)) ||| (param <<< 3) |||
    (val &&& mask 64 3 &&& mask 64 3) =
    0xd000#64 ||| ((r1 <<< 9) ||| (r2 <<< 6)) ||| (param <<< 3) ||| (val &&& mask 64 3)
  rw [BitVec.and_assoc, same]
  ac_rfl

end packed

theorem OnlyError.op {s t : AsmState b} (only : OnlyError s t) : t.op = s.op := by
  rcases only with rfl | ⟨m, rfl⟩
  · rfl
  · rfl

theorem readSigned_only (s : AsmState b) (text : List Byte) (bits : Nat) (val : BitVec 64) :
    OnlyError s (readSignedInto s text bits val).2 := orError_only ..

theorem readOperand_only (stale : Stale) (s : AsmState b) (form : Operands) (opstr : List Byte) :
    OnlyError s (readOperand stale s form opstr).2 := by
  unfold readOperand
  cases form <;> simp only <;> first
    | exact findLabel_only ..
    | split <;> exact orError_only ..

theorem readOperand_ccode (stale : Stale) (s : AsmState b) (form : Operands) (opstr : List Byte) :
    (readOperand stale s form opstr).2.ccode = s.ccode :=
  (Untouched.ofError (readOperand_only stale s form opstr)).ccode

section statement
variable {stale : Stale} {s : AsmState b} {form : Operands} {opstr : List Byte}

theorem generate_admitted (format : (opFormatOk s.op).testBit form.code) (other : s.op ≠ .ORIG)
    (started : s.sawOrig ≠ 0) : generateInstruction stale s form opstr =
      (let read := match form with
        | .RI => readSignedInto s (operand2 opstr) 9 (stale s.pass s.lineNum)
        | .RL => findLabel s (operand2 opstr) 9
        | _ => (stale s.pass s.lineNum, s)
      (generateOp read.2 form (operand1 opstr) (operand3 opstr) (regDigit (operand1 opstr))
        (regDigit (operand2 opstr)) (regDigit (operand3 opstr)) read.1).map newInstLine) := by
  simp only [generateInstruction, if_neg (not_not_intro format), if_neg other, if_neg started]
  rfl

theorem generate_field (stale : Stale) (opstr : List Byte)
    (field : numberForm s.op = some form ∨ labelForm s.op = some form)
    (started : s.sawOrig ≠ 0) (inside : s.ccode &&& ~~~0x0e00#64 = 0) :
    ∃ x, encoded s.op s.ccode (regDigit (operand1 opstr)) (regDigit (operand2 opstr))
        (fieldValue s.op (readOperand stale s form opstr).1) = some x ∧
      generateInstruction stale s form opstr =
        (writeInstructionValue (readOperand stale s form opstr).2 (x.make 16)).map newInstLine := by
  have same := readOperand_ccode stale s form opstr
  cases op : s.op with
  | ADD =>
    rw [op] at field
    rcases field with field | field <;> cases field
    refine ⟨_, rfl, ?_⟩
    rw [generate_admitted (by rw [op]; decide) (by rw [op]; decide) started]
    change _ = (writeInstructionValue _ ((Instr.ADD_I _ _ (signed 5 _)).make 16)).map newInstLine
    simp only [make_ADD_I, generateOp, readOperand, operandText, operandBits, isUnsigned, op,
      if_true,
      Bool.false_eq_true, if_false]
    rfl
  | AND =>
    rw [op] at field
    rcases field with field | field <;> cases field
    refine ⟨_, rfl, ?_⟩
    rw [generate_admitted (by rw [op]; decide) (by rw [op]; decide) started]
    change _ = (writeInstructionValue _ ((Instr.AND_I _ _ (signed 5 _)).make 16)).map newInstLine
    simp only [make_AND_I, generateOp, readOperand, operandText, operandBits, isUnsigned, op,
      if_true,
      Bool.false_eq_true, if_false]
    rfl
  | BR =>
    rw [op] at field
    rcases field with field | field <;> cases field
    all_goals
      refine ⟨_, rfl, ?_⟩
      rw [generate_admitted (by rw [op]; decide) (by rw [op]; decide) started]
      change _ = (writeInstructionValue _ ((Instr.BR _ (signed 9 _)).make 16)).map newInstLine
      rw [make_BR inside]
      simp only [generateOp, readOperand, operandText, operandBits, isUnsigned, op, if_true,
        Bool.false_eq_true, reduceCtorEq, if_false] at same ⊢
      rw [same]
      rfl
  | JSR =>
    rw [op] at field
    rcases field with field | field <;> cases field
    all_goals
      refine ⟨_, rfl, ?_⟩
      rw [generate_admitted (by rw [op]; decide) (by rw [op]; decide) started]
      change _ = (writeInstructionValue _ ((Instr.JSR_I (signed 11 _)).make 16)).map newInstLine
      simp only [make_JSR_I, generateOp, readOperand, operandText, operandBits, isUnsigned, op,
        if_true,
        Bool.false_eq_true, reduceCtorEq, if_false]
      rfl
  | LD | LDI | LEA | ST | STI =>
    rw [op] at field
    rcases field with field | field <;> cases field
    · refine ⟨_, rfl, ?_⟩
      rw [generate_admitted (by rw [op]; decide) (by rw [op]; decide) started]
      change _ = (writeInstructionValue _ (makeInstrRI 16 _ _ (signed 9 _))).map newInstLine
      have op' := (readSigned_only s (operand2 opstr) 9 (stale s.pass s.lineNum)).op.trans op
      simp only [make_offset9, generateOp, readOperand, operandText, operandBits, isUnsigned,
        op, op',
        Bool.false_eq_true, if_false]
      rfl
    · refine ⟨_, rfl, ?_⟩
      rw [generate_admitted (by rw [op]; decide) (by rw [op]; decide) started]
      change _ = (writeInstructionValue _ (makeInstrRI 16 _ _ (signed 9 _))).map newInstLine
      have op' := (findLabel_only (s := s) (operand2 opstr) 9).op.trans op
      simp only [make_offset9, generateOp, readOperand, operandText, operandBits, op, op']
      rfl
  | LDR | STR | RTI =>
    rw [op] at field
    rcases field with field | field <;> cases field
    refine ⟨_, rfl, ?_⟩
    rw [generate_admitted (by rw [op]; decide) (by rw [op]; decide) started]
    change _ = (writeInstructionValue _ (makeInstrRRI 16 _ _ _ (signed 6 _))).map newInstLine
    simp only [make_offset6, generateOp, readOperand, operandText, operandBits, isUnsigned, op,
      Bool.false_eq_true, if_false]
    rfl
  | TRAP =>
    rw [op] at field
    rcases field with field | field <;> cases field
    refine ⟨_, rfl, ?_⟩
    rw [generate_admitted (by rw [op]; decide) (by rw [op]; decide) started]
    change _ = (writeInstructionValue _ ((Instr.TRAP (_ &&& mask 64 8)).make 16)).map newInstLine
    simp only [make_TRAP, generateOp, readOperand, operandText, operandBits, isUnsigned, op,
      if_true]
    rfl
  | SLL | SRA =>
    rw [op] at field
    rcases field with field | field <;> cases field
    refine ⟨_, rfl, ?_⟩
    rw [generate_admitted (by rw [op]; decide) (by rw [op]; decide) started]
    change _ = (writeInstructionValue _ ((Instr.RES _ _ _ (_ &&& mask 64 3)).make 16)).map
      newInstLine
    simp only [make_RES, generateOp, readOperand, operandText, operandBits, isUnsigned, op, if_true]
    rfl
  | _ =>
    rw [op] at field
    rcases field with field | field <;> cases field

end statement

section field
variable {op : Op} {ccode r1 r2 v : BitVec 64} {x : Instr}

theorem fieldValue_signed (sign : isUnsigned op = false) :
    fieldValue op v = signed (operandBits op) v := by
  simp [fieldValue, sign]

theorem fieldValue_unsigned (plain : isUnsigned op = true) :
    fieldValue op v = v &&& mask 64 (operandBits op) := by
  simp [fieldValue, plain]

theorem operandBits_bounds (op : Op) : 0 < operandBits op ∧ operandBits op < 12 := by
  cases op <;> decide

/-- A field as the decoder needs it. -/
def FieldFits (op : Op) (v : BitVec 64) : Prop :=
  if isUnsigned op then v.toNat < 2 ^ operandBits op else InRange (operandBits op) v.toInt

theorem fieldValue_fits (op : Op) (v : BitVec 64) : FieldFits op (fieldValue op v) := by
  obtain ⟨positive, narrow⟩ := operandBits_bounds op
  unfold FieldFits fieldValue
  split
  · exact and_mask_lt (by omega)
  · exact signed_inRange positive (by omega) v

theorem encoded_readable (made : encoded op ccode r1 r2 v = some x) (fits : FieldFits op v)
    (flags : ccode &&& ~~~0x0e00#64 = 0)
    (first : numberForm op = some .RRI ∨ numberForm op = some .RI → r1.toNat < 8)
    (second : numberForm op = some .RRI → r2.toNat < 8) : x.Readable 16 := by
  have condition := (ccode_field flags).2
  cases op with
  | ADD | AND | LDR | STR | RTI =>
    cases made
    exact ⟨first (.inl rfl), second rfl, fits⟩
  | LD | LDI | LEA | ST | STI =>
    cases made
    exact ⟨first (.inr rfl), fits⟩
  | BR =>
    cases made
    exact ⟨condition, fits⟩
  | JSR =>
    cases made
    exact fits
  | TRAP =>
    cases made
    have small : v.toNat < 2 ^ 8 := fits
    have plain : v.toInt = v.toNat := BitVec.toInt_eq_toNat_of_lt (by omega)
    change InRange 12 v.toInt
    rw [plain]
    constructor <;> omega
  | SLL | SRA =>
    cases made
    exact ⟨first (.inl rfl), second rfl, by decide, fits⟩
  | _ => cases made

/-- The number an instruction carries. -/
def number : Instr → Option (BitVec 64)
  | .BR _ v | .LD _ v | .ST _ v | .LDI _ v | .STI _ v | .LEA _ v => some v
  | .ADD_I _ _ v | .AND_I _ _ v | .LDR _ _ v | .STR _ _ v | .RTI _ _ v => some v
  | .JSR_I v | .TRAP v => some v
  | .RES _ _ _ v => some v
  | .ADD_R .. | .AND_R .. | .JSR_R _ | .NOT .. | .JMP _ => none

theorem number_encoded (made : encoded op ccode r1 r2 v = some x) : number x = some v := by
  cases op <;> cases made <;> rfl

end field

/-- The value that is written for an instruction word. -/
def storedValue (b : Build) (val : BitVec 64) : BitVec 64 :=
  if b.instrBitCount ≠ 16 then
    ((instrConvert 16 b.instrBitCount val).setWidth b.registerBits).setWidth 64
  else val

theorem writeInstructionValue_eq (s : AsmState b) (val : BitVec 64) :
    writeInstructionValue s val = writeValue s (storedValue b val) := by
  unfold writeInstructionValue storedValue
  split <;> rfl

/-- The instruction in a word of the object file. -/
def loadedInstr (b : Build) (word : BitVec b.registerBits) : Instr :=
  parse b.instrBitCount ((loadSwap b word).setWidth 64)

theorem wordSwap16_small {v : BitVec 64} (small : v.toNat < 2 ^ 16) :
    wordSwap16 (Build.swap16 v) = v.setWidth 16 := by
  have high : (v >>> 16).setWidth 8 = 0 := by
    apply BitVec.eq_of_toNat_eq
    rw [BitVec.toNat_setWidth, BitVec.toNat_ushiftRight, Nat.shiftRight_eq_div_pow,
      Nat.div_eq_of_lt small]
    rfl
  rw [wordSwap16_swap16, high]
  simp

theorem loadedInstr_make {x : Instr} (readable : x.Readable 16) :
    loadedInstr b (b.swap (storedValue b (x.make 16))) = x := by
  have back := parse_make width16 readable
  have small := make_lt width16 readable
  have wide {n : Nat} (width : Width n) (less : 16 ≤ n) :
      parse n (instrConvert 16 n (x.make 16)) = x ∧
        (instrConvert 16 n (x.make 16)).toNat < 2 ^ n := by
    have same := readable_mono less readable
    rw [instrConvert_eq, back]
    exact ⟨parse_make width same, make_lt width same⟩
  cases b with
  | bit16 =>
    change parse 16 ((wordSwap16 (Build.swap16 (x.make 16))).setWidth 64) = x
    rw [wordSwap16_small small, setWidth_back small, back]
  | bit32 =>
    change parse 16 ((wordSwap32 (Build.swap32 (x.make 16))).setWidth 64) = x
    rw [wordSwap32_swap32, setWidth_back (by omega), back]
  | bit32Wide =>
    obtain ⟨same, less⟩ := wide (n := 32) ⟨by decide, by decide⟩ (by decide)
    change parse 32 ((wordSwap32 (Build.swap32
      (((instrConvert 16 32 (x.make 16)).setWidth 32).setWidth 64))).setWidth 64) = x
    rw [setWidth_back less, wordSwap32_swap32, setWidth_back less, same]
  | bit64Wide =>
    obtain ⟨same, less⟩ := wide (n := 64) ⟨by decide, by decide⟩ (by decide)
    change parse 64 ((((instrConvert 16 64 (x.make 16)).setWidth 64).setWidth 64).setWidth 64) = x
    rw [BitVec.setWidth_eq, BitVec.setWidth_eq, BitVec.setWidth_eq, same]

theorem field_registers {op : Op} {form : Operands}
    (field : numberForm op = some form ∨ labelForm op = some form) :
    (numberForm op = some .RRI → form = .RRI) ∧
      (numberForm op = some .RI → form = .RI ∨ form = .RL) := by
  cases op <;> rcases field with field | field <;> cases field <;>
    exact ⟨fun same => by cases same <;> rfl, fun same => by cases same <;> simp⟩

theorem Visits.started {stale : Stale} {s₁ p p' q q' : AsmState b}
    {before : List (Lexeme Byte Action)} {l : Lexeme Byte Action} {form : Operands}
    (visits : Visits stale s₁ before l p p' q q') (token : l.token = .generate form)
    (other : q.op ≠ .ORIG) : q.sawOrig ≠ 0 := by
  have here := place_codeLoc visits.place
  have inside : InSpace p := ⟨here ▸ visits.inside.1, here ▸ visits.inside.2⟩
  rw [← place_sawOrig visits.place]
  exact statement_started inside token (place_op visits.place ▸ other) visits.acted visits.errors

theorem field_other {op : Op} {form : Operands}
    (field : numberForm op = some form ∨ labelForm op = some form) : op ≠ .ORIG := by
  rintro rfl
  rcases field with field | field <;> cases field

theorem field_emitted {stale : Stale} {text : List Byte} {s₁ p p' q q' : AsmState b}
    {before : List (Lexeme Byte Action)} {l : Lexeme Byte Action} {form : Operands}
    (inside : l ∈ yylex text) (visits : Visits stale s₁ before l p p' q q')
    (token : l.token = .generate form)
    (field : numberForm q.op = some form ∨ labelForm q.op = some form) :
    q'.numErrors = (readOperand stale q form (buffer l)).2.numErrors ∧
      ∃ word, q'.objout = q.objout ++ [word] ∧
        encoded q.op q.ccode (regDigit (operand1 (buffer l))) (regDigit (operand2 (buffer l)))
          (fieldValue q.op (readOperand stale q form (buffer l)).1) = some
          (loadedInstr b word) := by
  have started := visits.started token (field_other field)
  have second := visits.second
  obtain ⟨x, made, generated⟩ :=
    generate_field stale (buffer l) field started second.ccode
  have only := readOperand_only stale q form (buffer l)
  have acted := visits.acted'
  simp only [act, token] at acted
  change generateInstruction stale q form (buffer l) = _ at acted
  rw [generated] at acted
  obtain ⟨t, wrote, rfl⟩ := map_ok acted
  rw [writeInstructionValue_eq] at wrote
  have written := writeValue_ok wrote
  have fits := registersFit inside token
  obtain ⟨three, two⟩ := field_registers field
  have readable : x.Readable 16 := by
    refine encoded_readable made (fieldValue_fits ..) second.ccode ?_ ?_
    · rintro (same | same)
      · exact fits.first (.inl (three same))
      · exact fits.first (.inr (two same))
    · exact fun same => fits.second (three same)
  refine ⟨written.errors, b.swap (storedValue b (x.make 16)), ?_, made.trans ?_⟩
  · have objout := written.objout
    rw [(Untouched.ofError only).pass, second.pass, if_pos rfl, only.objout] at objout
    exact objout
  · rw [loadedInstr_make readable]

end LC3Tools.Assembler
