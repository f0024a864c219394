import LC3Tools.Sim.Maker

/-! The parser reads back what the makers put together, for operands in the ranges of
their fields; and when the checks of the makers admit just these operands. -/
namespace LC3Tools.Maker
open InstrParser Converter BitFields

/-- The sizes of an instruction, 16 bits at least, as the macros compute in 64 bits. -/
structure Width (ib : Nat) : Prop where
  low : 16 ≤ ib
  high : ib ≤ 64

section layout
variable {ib : Nat} {op num1 num2 rest : BitVec 64}

theorem moves (ib : Nat) : operCodeMoveBit ib = ib - 4 ∧ regNum1MoveBit ib = ib - 4 - 3 ∧
    regNum2MoveBit ib = ib - 4 - 3 - 3 ∧ paramAfterNum2MoveBit ib = ib - 4 - 3 - 3 - 3 :=
  ⟨rfl, rfl, rfl, rfl⟩

theorem regNum3_eq (i : BitVec 64) : regNum3 i = field 0 3 i := field_zero.symm

theorem uintAfterParam_eq (ib : Nat) (i : BitVec 64) :
    uintAfterParam ib i = field 0 (paramAfterNum2MoveBit ib) i := field_zero.symm

theorem one_field (width : Width ib) (code : op.toNat < 2 ^ 4)
    (below : rest.toNat < 2 ^ operCodeMoveBit ib) :
    operCode ib (op <<< operCodeMoveBit ib ||| rest) = op ∧
      ∀ p k, p + k ≤ operCodeMoveBit ib →
        field p k (op <<< operCodeMoveBit ib ||| rest) = field p k rest := by
  obtain ⟨low, high⟩ := width
  obtain ⟨a, -⟩ := moves ib
  have here : field (operCodeMoveBit ib) 4 (op <<< operCodeMoveBit ib ||| rest) = op :=
    field_join code below (by omega) (by decide)
  refine ⟨here, ?_⟩
  intro p k inside
  exact field_join_below (by omega) inside

theorem two_fields (width : Width ib) (code : op.toNat < 2 ^ 4) (first : num1.toNat < 2 ^ 3)
    (below : rest.toNat < 2 ^ regNum1MoveBit ib) {word : BitVec 64}
    (made : word = op <<< operCodeMoveBit ib ||| (num1 <<< regNum1MoveBit ib ||| rest)) :
    operCode ib word = op ∧ regNum1 ib word = num1 ∧
      ∀ p k, p + k ≤ regNum1MoveBit ib → field p k word = field p k rest := by
  obtain ⟨a, b, -⟩ := moves ib
  have size := width.low
  have size' := width.high
  have shorter : (num1 <<< regNum1MoveBit ib ||| rest).toNat < 2 ^ operCodeMoveBit ib := by
    have less := join_lt first below
    have sum : regNum1MoveBit ib + 3 = operCodeMoveBit ib := by omega
    rwa [sum] at less
  obtain ⟨oper, behind⟩ := one_field width code shorter
  subst made
  refine ⟨oper, ?_, ?_⟩
  · have here : regNum1 ib (op <<< operCodeMoveBit ib ||| (num1 <<< regNum1MoveBit ib ||| rest)) =
        field (regNum1MoveBit ib) 3 (num1 <<< regNum1MoveBit ib ||| rest) :=
      behind _ 3 (by omega)
    rw [here]
    exact field_join first below (by omega) (by decide)
  · intro p k inside
    rw [behind p k (by omega)]
    exact field_join_below (by omega) inside

theorem three_fields (width : Width ib) (code : op.toNat < 2 ^ 4) (first : num1.toNat < 2 ^ 3)
    (second : num2.toNat < 2 ^ 3) (below : rest.toNat < 2 ^ regNum2MoveBit ib) {word : BitVec 64}
    (made : word = op <<< operCodeMoveBit ib |||
      (num1 <<< regNum1MoveBit ib ||| (num2 <<< regNum2MoveBit ib ||| rest))) :
    operCode ib word = op ∧ regNum1 ib word = num1 ∧ regNum2 ib word = num2 ∧
      ∀ p k, p + k ≤ regNum2MoveBit ib → field p k word = field p k rest := by
  obtain ⟨a, b, c, -⟩ := moves ib
  have size := width.low
  have size' := width.high
  have shorter : (num2 <<< regNum2MoveBit ib ||| rest).toNat < 2 ^ regNum1MoveBit ib := by
    have less := join_lt second below
    have sum : regNum2MoveBit ib + 3 = regNum1MoveBit ib := by omega
    rwa [sum] at less
  obtain ⟨oper, one, behind⟩ := two_fields width code first shorter made
  refine ⟨oper, one, ?_, ?_⟩
  · have here : regNum2 ib word =
        field (regNum2MoveBit ib) 3 (num2 <<< regNum2MoveBit ib ||| rest) := behind _ 3 (by omega)
    rw [here]
    exact field_join second below (by omega) (by decide)
  · intro p k inside
    rw [behind p k (by omega)]
    exact field_join_below (by omega) inside

end layout

section ranges
variable (ib : Nat)

/-- Every operand fits the field it is stored in. -/
def Operands.Fits : Operands → Prop
  | RRR num1 num2 num3 => num1.toNat < 8 ∧ num2.toNat < 8 ∧ num3.toNat < 8
  | RRI num1 num2 val => num1.toNat < 8 ∧ num2.toNat < 8 ∧ InRange (regNum2MoveBit ib) val.toInt
  | RRPI num1 num2 param val => num1.toNat < 8 ∧ num2.toNat < 8 ∧ param.toNat < 8 ∧
      val.toNat < 2 ^ paramAfterNum2MoveBit ib
  | RRIWithFlag num1 num2 val =>
    num1.toNat < 8 ∧ num2.toNat < 8 ∧ InRange (regNum2MoveBit ib - 1) val.toInt
  | RR num1 num2 => num1.toNat < 8 ∧ num2.toNat < 8
  | RI num1 val => num1.toNat < 8 ∧ InRange (regNum1MoveBit ib) val.toInt
  | R2 num2 => num2.toNat < 8
  | IWithFlag val => InRange (operCodeMoveBit ib - 1) val.toInt
  | T val => val.toNat < 2 ^ operCodeMoveBit ib

/-- Every operand can be read from its field. A trap vector is read with a sign. -/
def Operands.Readable : Operands → Prop
  | T val => InRange (operCodeMoveBit ib) val.toInt
  | x => x.Fits ib

def Instr.Fits (x : Instr) : Prop := x.operands.Fits ib
def Instr.Readable (x : Instr) : Prop := x.operands.Readable ib

end ranges

section inverse
variable {ib : Nat} {op num1 num2 num3 param val : BitVec 64}

theorem signed_of_low {k : Nat} {word : BitVec 64} (positive : 0 < k) (narrow : k < 64)
    (low : field 0 k word = field 0 k val) (inside : InRange k val.toInt) : signed k word = val :=
  (signed_congr low).trans (signed_of_inRange positive narrow inside)

theorem make_RI (width : Width ib) (code : op.toNat < 2 ^ 4) (first : num1.toNat < 8)
    (inside : InRange (regNum1MoveBit ib) val.toInt) :
    operCode ib (makeInstrRI ib op num1 val) = op ∧ regNum1 ib (makeInstrRI ib op num1 val) = num1 ∧
      intAfterNum1 ib (makeInstrRI ib op num1 val) = val := by
  obtain ⟨a, b, -⟩ := moves ib
  obtain ⟨low, high⟩ := width
  obtain ⟨oper, one, behind⟩ := two_fields ⟨low, high⟩ code first
    (and_mask_lt (x := val) (k := regNum1MoveBit ib) (by omega)) (BitVec.or_assoc ..)
  refine ⟨oper, one, signed_of_low (by omega) (by omega) ?_ inside⟩
  exact (behind _ _ (by omega)).trans (field_zero_field (by omega) (Nat.le_refl _))

theorem make_RRIWithFlag (width : Width ib) (code : op.toNat < 2 ^ 4) (first : num1.toNat < 8)
    (second : num2.toNat < 8) (inside : InRange (regNum2MoveBit ib - 1) val.toInt) :
    operCode ib (makeInstrRRIWithFlag ib op num1 num2 val) = op ∧
      regNum1 ib (makeInstrRRIWithFlag ib op num1 num2 val) = num1 ∧
      regNum2 ib (makeInstrRRIWithFlag ib op num1 num2 val) = num2 ∧
      intAfterNum2Flag ib (makeInstrRRIWithFlag ib op num1 num2 val) ≠ 0 ∧
      intAfterNum2WithFlag ib (makeInstrRRIWithFlag ib op num1 num2 val) = val := by
  obtain ⟨a, b, c, -⟩ := moves ib
  obtain ⟨low, high⟩ := width
  have small : (val &&& mask 64 (regNum2MoveBit ib - 1)).toNat < 2 ^ (regNum2MoveBit ib - 1) :=
    and_mask_lt (by omega)
  have one : (1#64).toNat < 2 ^ 1 := by decide
  have below := join_lt one small
  have sum : regNum2MoveBit ib - 1 + 1 = regNum2MoveBit ib := by omega
  rw [sum] at below
  have made : makeInstrRRIWithFlag ib op num1 num2 val = op <<< operCodeMoveBit ib |||
      (num1 <<< regNum1MoveBit ib ||| (num2 <<< regNum2MoveBit ib |||
        (1#64 <<< (regNum2MoveBit ib - 1) ||| val &&& mask 64 (regNum2MoveBit ib - 1)))) := by
    simp only [makeInstrRRIWithFlag, BitVec.or_assoc]
    rfl
  obtain ⟨oper, reg1, reg2, behind⟩ := three_fields ⟨low, high⟩ code first second below made
  refine ⟨oper, reg1, reg2, ?_, signed_of_low (by omega) (by omega) ?_ inside⟩
  · intro none
    have flag := (and_bit_field (by omega) (by decide)).mp none
    rw [behind _ _ (by omega), field_join one small (by omega) (by decide)] at flag
    exact absurd flag (by decide)
  · rw [behind _ _ (by omega), field_join_below (by omega) (by omega)]
    exact field_zero_field (by omega) (Nat.le_refl _)

theorem make_RRR (width : Width ib) (code : op.toNat < 2 ^ 4) (first : num1.toNat < 8)
    (second : num2.toNat < 8) (third : num3.toNat < 8) :
    operCode ib (makeInstrRRR ib op num1 num2 num3) = op ∧
      regNum1 ib (makeInstrRRR ib op num1 num2 num3) = num1 ∧
      regNum2 ib (makeInstrRRR ib op num1 num2 num3) = num2 ∧
      intAfterNum2Flag ib (makeInstrRRR ib op num1 num2 num3) = 0 ∧
      regNum3 (makeInstrRRR ib op num1 num2 num3) = num3 := by
  obtain ⟨a, b, c, -⟩ := moves ib
  obtain ⟨low, high⟩ := width
  have small : num3.toNat < 2 ^ 3 := third
  have below : num3.toNat < 2 ^ regNum2MoveBit ib :=
    Nat.lt_of_lt_of_le small (Nat.pow_le_pow_right (by decide) (by omega))
  have made : makeInstrRRR ib op num1 num2 num3 = op <<< operCodeMoveBit ib |||
      (num1 <<< regNum1MoveBit ib ||| (num2 <<< regNum2MoveBit ib ||| num3)) := by
    simp only [makeInstrRRR, BitVec.or_assoc]
  obtain ⟨oper, reg1, reg2, behind⟩ := three_fields ⟨low, high⟩ code first second below made
  refine ⟨oper, reg1, reg2, ?_, ?_⟩
  · apply (and_bit_field (by omega) (by decide)).mpr
    rw [behind _ _ (by omega)]
    exact field_of_small (by decide) small (by omega)
  · rw [regNum3_eq, behind _ _ (by omega)]
    exact field_zero_of_small (by decide) small

theorem make_RRI (width : Width ib) (code : op.toNat < 2 ^ 4) (first : num1.toNat < 8)
    (second : num2.toNat < 8) (inside : InRange (regNum2MoveBit ib) val.toInt) :
    operCode ib (makeInstrRRI ib op num1 num2 val) = op ∧
      regNum1 ib (makeInstrRRI ib op num1 num2 val) = num1 ∧
      regNum2 ib (makeInstrRRI ib op num1 num2 val) = num2 ∧
      intAfterNum2 ib (makeInstrRRI ib op num1 num2 val) = val := by
  obtain ⟨a, b, c, -⟩ := moves ib
  obtain ⟨low, high⟩ := width
  have made : makeInstrRRI ib op num1 num2 val = op <<< operCodeMoveBit ib |||
      (num1 <<< regNum1MoveBit ib ||| (num2 <<< regNum2MoveBit ib |||
        val &&& mask 64 (regNum2MoveBit ib))) := by
    simp only [makeInstrRRI, BitVec.or_assoc]
    rfl
  obtain ⟨oper, reg1, reg2, behind⟩ :=
    three_fields ⟨low, high⟩ code first second (and_mask_lt (by omega)) made
  refine ⟨oper, reg1, reg2, signed_of_low (by omega) (by omega) ?_ inside⟩
  exact (behind _ _ (by omega)).trans (field_zero_field (by omega) (Nat.le_refl _))

theorem make_RRPI (width : Width ib) (code : op.toNat < 2 ^ 4) (first : num1.toNat < 8)
    (second : num2.toNat < 8) (third : param.toNat < 8)
    (inside : val.toNat < 2 ^ paramAfterNum2MoveBit ib) :
    operCode ib (makeInstrRRPI ib op num1 num2 param val) = op ∧
      regNum1 ib (makeInstrRRPI ib op num1 num2 param val) = num1 ∧
      regNum2 ib (makeInstrRRPI ib op num1 num2 param val) = num2 ∧
      paramAfterNum2 ib (makeInstrRRPI ib op num1 num2 param val) = param ∧
      uintAfterParam ib (makeInstrRRPI ib op num1 num2 param val) = val := by
  obtain ⟨a, b, c, d⟩ := moves ib
  obtain ⟨low, high⟩ := width
  have small : param.toNat < 2 ^ 3 := third
  have whole : val &&& mask 64 (paramAfterNum2MoveBit ib) = val :=
    (and_mask_eq_self (by omega)).mpr inside
  have below := join_lt small inside
  have sum : paramAfterNum2MoveBit ib + 3 = regNum2MoveBit ib := by omega
  rw [sum] at below
  have made : makeInstrRRPI ib op num1 num2 param val = op <<< operCodeMoveBit ib |||
      (num1 <<< regNum1MoveBit ib ||| (num2 <<< regNum2MoveBit ib |||
        (param <<< paramAfterNum2MoveBit ib ||| val))) := by
    have masked : val &&& lowMask (paramAfterNum2MoveBit ib) = val := whole
    simp only [makeInstrRRPI, BitVec.or_assoc, masked]
  obtain ⟨oper, reg1, reg2, behind⟩ := three_fields ⟨low, high⟩ code first second below made
  refine ⟨oper, reg1, reg2, ?_, ?_⟩
  · exact (behind _ 3 (by omega)).trans (field_join small inside (by omega) (by decide))
  · rw [uintAfterParam_eq, behind _ _ (by omega), field_join_below (by omega) (by omega)]
    exact field_zero_of_small (by omega) inside

theorem make_RR (width : Width ib) (code : op.toNat < 2 ^ 4) (first : num1.toNat < 8)
    (second : num2.toNat < 8) :
    operCode ib (makeInstrRR ib op num1 num2) = op ∧
      regNum1 ib (makeInstrRR ib op num1 num2) = num1 ∧
      regNum2 ib (makeInstrRR ib op num1 num2) = num2 := by
  have made : makeInstrRR ib op num1 num2 = op <<< operCodeMoveBit ib |||
      (num1 <<< regNum1MoveBit ib ||| (num2 <<< regNum2MoveBit ib ||| 0#64)) := by
    simp only [makeInstrRR, BitVec.or_assoc, BitVec.or_zero]
  have empty : (0#64).toNat < 2 ^ regNum2MoveBit ib := Nat.two_pow_pos _
  obtain ⟨oper, reg1, reg2, -⟩ := three_fields width code first second empty made
  exact ⟨oper, reg1, reg2⟩

theorem make_R2 (width : Width ib) (code : op.toNat < 2 ^ 4) (second : num2.toNat < 8) :
    operCode ib (makeInstrR2 ib op num2) = op ∧ regNum2 ib (makeInstrR2 ib op num2) = num2 ∧
      intAfterOperFlag ib (makeInstrR2 ib op num2) = 0 := by
  obtain ⟨a, b, c, -⟩ := moves ib
  obtain ⟨low, high⟩ := width
  have none : (0#64).toNat < 2 ^ 3 := by decide
  have empty : (0#64).toNat < 2 ^ regNum2MoveBit ib := Nat.two_pow_pos _
  have made : makeInstrR2 ib op num2 = op <<< operCodeMoveBit ib |||
      (0#64 <<< regNum1MoveBit ib ||| (num2 <<< regNum2MoveBit ib ||| 0#64)) := by
    simp [makeInstrR2]
  obtain ⟨oper, -, reg2, -⟩ := three_fields ⟨low, high⟩ code none second empty made
  have small : (num2 <<< regNum2MoveBit ib ||| 0#64).toNat < 2 ^ (regNum2MoveBit ib + 3) :=
    join_lt second empty
  have below : (num2 <<< regNum2MoveBit ib ||| 0#64).toNat < 2 ^ operCodeMoveBit ib :=
    Nat.lt_of_lt_of_le small (Nat.pow_le_pow_right (by decide) (by omega))
  obtain ⟨-, behind⟩ := one_field ⟨low, high⟩ code below
  refine ⟨oper, reg2, ?_⟩
  apply (and_bit_field (by omega) (by decide)).mpr
  have same : makeInstrR2 ib op num2 =
      op <<< operCodeMoveBit ib ||| (num2 <<< regNum2MoveBit ib ||| 0#64) := by
    rw [BitVec.or_zero]
    rfl
  rw [same, behind _ _ (by omega)]
  exact field_of_small (by decide) small (by omega)

theorem make_IWithFlag (width : Width ib) (code : op.toNat < 2 ^ 4)
    (inside : InRange (operCodeMoveBit ib - 1) val.toInt) :
    operCode ib (makeInstrIWithFlag ib op val) = op ∧
      intAfterOperFlag ib (makeInstrIWithFlag ib op val) ≠ 0 ∧
      intAfterOperWithFlag ib (makeInstrIWithFlag ib op val) = val := by
  obtain ⟨a, -⟩ := moves ib
  obtain ⟨low, high⟩ := width
  have one : (1#64).toNat < 2 ^ 1 := by decide
  have small : (val &&& mask 64 (operCodeMoveBit ib)).toNat < 2 ^ operCodeMoveBit ib :=
    and_mask_lt (by omega)
  have below : (1#64 <<< (operCodeMoveBit ib - 1) ||| val &&& mask 64 (operCodeMoveBit ib)).toNat <
      2 ^ operCodeMoveBit ib := by
    rw [BitVec.toNat_or]
    apply Nat.or_lt_two_pow _ small
    rw [one_shift_toNat (by omega)]
    exact Nat.pow_lt_pow_right (by decide) (by omega)
  have made : makeInstrIWithFlag ib op val = op <<< operCodeMoveBit ib |||
      (1#64 <<< (operCodeMoveBit ib - 1) ||| val &&& mask 64 (operCodeMoveBit ib)) := by
    simp only [makeInstrIWithFlag, BitVec.or_assoc]
    rfl
  obtain ⟨oper, behind⟩ := one_field ⟨low, high⟩ code below
  rw [← made] at oper behind
  refine ⟨oper, ?_, signed_of_low (by omega) (by omega) ?_ inside⟩
  · intro none
    have flag := (and_bit_field (by omega) (by decide)).mp none
    rw [behind _ _ (by omega), field_or,
      field_shiftLeft one (by omega) (by decide)] at flag
    have bit := congrArg (BitVec.getLsbD · 0) flag
    simp at bit
  · rw [behind _ _ (by omega), field_join_below (by omega) (by omega)]
    exact field_zero_field (by omega) (by omega)

theorem make_T (width : Width ib) (code : op.toNat < 2 ^ 4)
    (inside : InRange (operCodeMoveBit ib) val.toInt) :
    operCode ib (makeInstrT ib op val) = op ∧ trap ib (makeInstrT ib op val) = val := by
  obtain ⟨a, -⟩ := moves ib
  obtain ⟨low, high⟩ := width
  obtain ⟨oper, behind⟩ := one_field ⟨low, high⟩ code
    (and_mask_lt (x := val) (k := operCodeMoveBit ib) (by omega))
  refine ⟨oper, signed_of_low (by omega) (by omega) ?_ inside⟩
  exact (behind _ _ (by omega)).trans (field_zero_field (by omega) (Nat.le_refl _))

theorem opcodeBits_lt (op : Opcode) : (opcodeBits op).toNat < 2 ^ 4 := by
  cases op <;> decide

@[simp] theorem ofCode_opcodeBits (op : Opcode) : Opcode.ofCode (opcodeBits op).toNat = op := by
  cases op <;> rfl

theorem parse_make (width : Width ib) {x : Instr} (readable : x.Readable ib) :
    parse ib (x.make ib) = x := by
  have code := opcodeBits_lt x.opcode
  cases x with
  | BR num1 val | LD num1 val | ST num1 val | LDI num1 val | STI num1 val | LEA num1 val =>
    simp only [Instr.opcode] at code
    obtain ⟨first, inside⟩ := readable
    obtain ⟨oper, reg1, offset⟩ := make_RI width code first inside
    simp only [Instr.make, Instr.operands, Instr.opcode, Operands.make, parse, oper, reg1, offset,
      ofCode_opcodeBits]
  | ADD_I num1 num2 val | AND_I num1 num2 val =>
    simp only [Instr.opcode] at code
    obtain ⟨first, second, inside⟩ := readable
    obtain ⟨oper, reg1, reg2, flag, offset⟩ :=
      make_RRIWithFlag width code first second inside
    simp only [Instr.make, Instr.operands, Instr.opcode, Operands.make, parse, oper, reg1, reg2,
      offset, ofCode_opcodeBits, if_pos flag]
  | ADD_R num1 num2 num3 | AND_R num1 num2 num3 =>
    simp only [Instr.opcode] at code
    obtain ⟨first, second, third⟩ := readable
    obtain ⟨oper, reg1, reg2, flag, reg3⟩ := make_RRR width code first second third
    simp only [Instr.make, Instr.operands, Instr.opcode, Operands.make, parse, oper, reg1,
      reg2, reg3,
      ofCode_opcodeBits, flag, ne_eq, not_true_eq_false, if_false]
  | JSR_I val =>
    simp only [Instr.opcode] at code
    obtain ⟨oper, flag, offset⟩ := make_IWithFlag width code readable
    simp only [Instr.make, Instr.operands, Instr.opcode, Operands.make, parse, oper, offset,
      ofCode_opcodeBits, if_pos flag]
  | JSR_R num2 =>
    simp only [Instr.opcode] at code
    obtain ⟨oper, reg2, flag⟩ := make_R2 width code readable
    simp only [Instr.make, Instr.operands, Instr.opcode, Operands.make, parse, oper, reg2,
      ofCode_opcodeBits, flag, ne_eq, not_true_eq_false, if_false]
  | LDR num1 num2 val | STR num1 num2 val | RTI num1 num2 val =>
    simp only [Instr.opcode] at code
    obtain ⟨first, second, inside⟩ := readable
    obtain ⟨oper, reg1, reg2, offset⟩ := make_RRI width code first second inside
    simp only [Instr.make, Instr.operands, Instr.opcode, Operands.make, parse, oper, reg1, reg2,
      offset, ofCode_opcodeBits]
  | NOT num1 num2 =>
    simp only [Instr.opcode] at code
    obtain ⟨first, second⟩ := readable
    obtain ⟨oper, reg1, reg2⟩ := make_RR width code first second
    simp only [Instr.make, Instr.operands, Instr.opcode, Operands.make, parse, oper, reg1, reg2,
      ofCode_opcodeBits]
  | JMP num2 =>
    simp only [Instr.opcode] at code
    obtain ⟨oper, reg2, -⟩ := make_R2 width code readable
    simp only [Instr.make, Instr.operands, Instr.opcode, Operands.make, parse, oper, reg2,
      ofCode_opcodeBits]
  | RES num1 num2 param val =>
    simp only [Instr.opcode] at code
    obtain ⟨first, second, third, inside⟩ := readable
    obtain ⟨oper, reg1, reg2, par, offset⟩ :=
      make_RRPI width code first second third inside
    simp only [Instr.make, Instr.operands, Instr.opcode, Operands.make, parse, oper, reg1,
      reg2, par,
      offset, ofCode_opcodeBits]
  | TRAP val =>
    simp only [Instr.opcode] at code
    obtain ⟨oper, vector⟩ := make_T width code readable
    simp only [Instr.make, Instr.operands, Instr.opcode, Operands.make, parse, oper, vector,
      ofCode_opcodeBits]

theorem parse_readable (width : Width ib) (i : BitVec 64) : (parse ib i).Readable ib := by
  obtain ⟨a, b, c, d⟩ := moves ib
  obtain ⟨low, high⟩ := width
  have first : (regNum1 ib i).toNat < 8 := field_lt (k := 3) (by decide)
  have second : (regNum2 ib i).toNat < 8 := field_lt (k := 3) (by decide)
  have third : (regNum3 i).toNat < 8 := and_mask_lt (k := 3) (by decide)
  have par : (paramAfterNum2 ib i).toNat < 8 := field_lt (k := 3) (by decide)
  have count : (uintAfterParam ib i).toNat < 2 ^ paramAfterNum2MoveBit ib := and_mask_lt (by omega)
  have offset : InRange (regNum1MoveBit ib) (intAfterNum1 ib i).toInt :=
    signed_inRange (by omega) (by omega) i
  have offset' : InRange (regNum2MoveBit ib) (intAfterNum2 ib i).toInt :=
    signed_inRange (by omega) (by omega) i
  have number : InRange (regNum2MoveBit ib - 1) (intAfterNum2WithFlag ib i).toInt :=
    signed_inRange (by omega) (by omega) i
  have call : InRange (operCodeMoveBit ib - 1) (intAfterOperWithFlag ib i).toInt :=
    signed_inRange (by omega) (by omega) i
  have vector : InRange (operCodeMoveBit ib) (trap ib i).toInt :=
    signed_inRange (by omega) (by omega) i
  unfold parse
  cases Opcode.ofCode (operCode ib i).toNat with
  | BR | LD | ST | LDI | STI | LEA => exact ⟨first, offset⟩
  | ADD | AND =>
    by_cases flag : intAfterNum2Flag ib i ≠ 0
    · simp only [if_pos flag]
      exact ⟨first, second, number⟩
    · simp only [if_neg flag]
      exact ⟨first, second, third⟩
  | JSR =>
    by_cases flag : intAfterOperFlag ib i ≠ 0
    · simp only [if_pos flag]
      exact call
    · simp only [if_neg flag]
      exact second
  | LDR | STR | RTI => exact ⟨first, second, offset'⟩
  | NOT => exact ⟨first, second⟩
  | JMP => exact second
  | RES => exact ⟨first, second, par, count⟩
  | TRAP => exact vector

end inverse

section checks
variable {ib : Nat}

theorem checkRegnum_iff {num : BitVec 64} : checkRegnum num ↔ num.toNat < 8 := by
  rw [checkRegnum, decide_eq_true_iff]
  exact and_not_mask (k := 3) (by decide)

theorem checkIntWithMask_iff {k : Nat} (narrow : k < 64) {val : BitVec 64} :
    checkIntWithMask val (lowMask k) ↔ val.toInt.natAbs < 2 ^ k := by
  have small := val.isLt
  have magnitude : (if val.toInt < 0 then -val else val).toNat = val.toInt.natAbs := by
    split
    · rename_i sign
      rw [BitVec.toInt_eq_toNat_cond] at sign ⊢
      rw [BitVec.toNat_neg]
      split at sign <;> split <;> omega
    · rename_i sign
      rw [BitVec.toInt_eq_toNat_cond] at sign ⊢
      split at sign <;> split <;> omega
  rw [checkIntWithMask, decide_eq_true_iff, ← magnitude]
  exact and_not_mask narrow

theorem checkTrap_iff (width : Width ib) (val : BitVec 64) :
    checkTrap ib val ↔ val.toNat < 2 ^ operCodeMoveBit ib := by
  obtain ⟨a, -⟩ := moves ib
  have size := width.low
  have size' := width.high
  rw [checkTrap, decide_eq_true_iff]
  exact and_not_mask (by omega)

/-- As large as a number of `k` bits without a sign, but too large for one with a sign. -/
def Between (k : Nat) (n : Int) : Prop :=
  2 ^ (k - 1) ≤ n ∧ n < 2 ^ k ∨ -2 ^ k < n ∧ n < -2 ^ (k - 1)

/-- The operands that the checks of a maker get wrong, and the vectors that change their
sign on the way back. -/
def Operands.Misjudged (ib : Nat) : Operands → Prop
  | RRI num1 num2 val =>
    num1.toNat < 8 ∧ num2.toNat < 8 ∧ val.toInt = -2 ^ (regNum2MoveBit ib - 1)
  | RRPI num1 num2 param val => num1.toNat < 8 ∧ num2.toNat < 8 ∧ param.toInt.natAbs < 8 ∧
      val.toInt.natAbs < 2 ^ paramAfterNum2MoveBit ib ∧ (param.toInt < 0 ∨ val.toInt < 0)
  | RRIWithFlag num1 num2 val =>
    num1.toNat < 8 ∧ num2.toNat < 8 ∧ Between (regNum2MoveBit ib - 1) val.toInt
  | RI num1 val => num1.toNat < 8 ∧ Between (regNum1MoveBit ib) val.toInt
  | IWithFlag val => Between (operCodeMoveBit ib - 1) val.toInt
  | T val => 2 ^ (operCodeMoveBit ib - 1) ≤ val.toNat ∧ val.toNat < 2 ^ operCodeMoveBit ib
  | RRR .. | RR .. | R2 _ => False

def Instr.Misjudged (ib : Nat) (x : Instr) : Prop := x.operands.Misjudged ib

theorem natAbs_lt {k : Nat} {n : Int} : n.natAbs < 2 ^ k ↔ -2 ^ k < n ∧ n < 2 ^ k := by
  have powers : (2 : Int) ^ k = ((2 ^ k : Nat) : Int) := by simp
  rw [powers]
  omega

theorem between_iff {k : Nat} (positive : 0 < k) (n : Int) :
    Between k n ↔ n.natAbs < 2 ^ k ∧ ¬ InRange k n := by
  have half := two_pow_half positive
  have powers (j : Nat) : (2 : Int) ^ j = ((2 ^ j : Nat) : Int) := by simp
  rw [natAbs_lt, Between, InRange, powers, powers]
  omega

theorem inRange_natAbs {k : Nat} (positive : 0 < k) {n : Int} (inside : InRange k n) :
    n.natAbs < 2 ^ k := by
  have half := two_pow_half positive
  have powers (j : Nat) : (2 : Int) ^ j = ((2 ^ j : Nat) : Int) := by simp
  obtain ⟨low, high⟩ := inside
  rw [powers] at low high
  omega

theorem unless_negative {r s p v below below' : Prop} :
    (((r ∧ s) ∧ p) ∧ v ↔ r ∧ s ∧ (p ∧ ¬ below) ∧ v ∧ ¬ below') ↔
      ¬ (r ∧ s ∧ p ∧ v ∧ (below ∨ below')) := by
  tauto

theorem checks_fits_iff (width : Width ib) (x : Operands) (other : ∀ val, x ≠ .T val) :
    (x.checks ib ↔ x.Fits ib) ↔ ¬ x.Misjudged ib := by
  obtain ⟨a, b, c, d⟩ := moves ib
  obtain ⟨low, high⟩ := width
  cases x with
  | RRR num1 num2 num3 =>
    simp [Operands.checks, Operands.Fits, Operands.Misjudged, checkRegnum_iff, and_assoc]
  | RR num1 num2 => simp [Operands.checks, Operands.Fits, Operands.Misjudged, checkRegnum_iff]
  | R2 num2 => simp [Operands.checks, Operands.Fits, Operands.Misjudged, checkRegnum_iff]
  | RI num1 val =>
    have narrower := inRange_natAbs (k := regNum1MoveBit ib) (n := val.toInt) (by omega)
    simp only [Operands.checks, Operands.Fits, Operands.Misjudged, Bool.and_eq_true,
      checkRegnum_iff,
      checkIntWithMask_iff (show regNum1MoveBit ib < 64 by omega),
      between_iff (show 0 < regNum1MoveBit ib by omega)]
    tauto
  | RRIWithFlag num1 num2 val =>
    have narrower := inRange_natAbs (k := regNum2MoveBit ib - 1) (n := val.toInt) (by omega)
    simp only [Operands.checks, Operands.Fits, Operands.Misjudged, Bool.and_eq_true,
      checkRegnum_iff,
      checkIntWithMask_iff (show regNum2MoveBit ib - 1 < 64 by omega),
      between_iff (show 0 < regNum2MoveBit ib - 1 by omega)]
    tauto
  | IWithFlag val =>
    have narrower := inRange_natAbs (k := operCodeMoveBit ib - 1) (n := val.toInt) (by omega)
    simp only [Operands.checks, Operands.Fits, Operands.Misjudged,
      checkIntWithMask_iff (show operCodeMoveBit ib - 1 < 64 by omega),
      between_iff (show 0 < operCodeMoveBit ib - 1 by omega)]
    tauto
  | RRI num1 num2 val =>
    have lowest : InRange (regNum2MoveBit ib) val.toInt ↔
        val.toInt.natAbs < 2 ^ (regNum2MoveBit ib - 1) ∨
          val.toInt = -2 ^ (regNum2MoveBit ib - 1) := by
      have positive := Nat.two_pow_pos (regNum2MoveBit ib - 1)
      have powers (j : Nat) : (2 : Int) ^ j = ((2 ^ j : Nat) : Int) := by simp
      rw [InRange, powers]
      omega
    have apart : val.toInt = -2 ^ (regNum2MoveBit ib - 1) →
        ¬ val.toInt.natAbs < 2 ^ (regNum2MoveBit ib - 1) := by
      have powers (j : Nat) : (2 : Int) ^ j = ((2 ^ j : Nat) : Int) := by simp
      rw [powers]
      omega
    simp only [Operands.checks, Operands.Fits, Operands.Misjudged, Bool.and_eq_true,
      checkRegnum_iff,
      checkIntWithMask_iff (show regNum2MoveBit ib - 1 < 64 by omega), lowest]
    tauto
  | RRPI num1 num2 param val =>
    have unsigned {k : Nat} (narrow : k < 63) (v : BitVec 64) :
        v.toNat < 2 ^ k ↔ v.toInt.natAbs < 2 ^ k ∧ ¬ v.toInt < 0 := by
      have bound : 2 ^ k < 2 ^ 63 := Nat.pow_lt_pow_right (by decide) narrow
      have small := v.isLt
      rw [BitVec.toInt_eq_toNat_cond]
      split <;> omega
    have number : param.toNat < 8 ↔ param.toInt.natAbs < 8 ∧ ¬ param.toInt < 0 :=
      unsigned (k := 3) (by decide) param
    simp only [Operands.checks, Operands.Fits, Operands.Misjudged, Bool.and_eq_true,
      checkRegnum_iff,
      paramBitCount, checkIntWithMask_iff (show 3 < 64 by decide),
      checkIntWithMask_iff (show paramAfterNum2MoveBit ib < 64 by omega), number,
      unsigned (show paramAfterNum2MoveBit ib < 63 by omega) val]
    exact unless_negative
  | T val => exact absurd rfl (other val)

theorem checks_trap_iff (width : Width ib) (val : BitVec 64) :
    ((Instr.TRAP val).checks ib ↔ (Instr.TRAP val).Fits ib) ∧
      ((Instr.TRAP val).checks ib →
        ((Instr.TRAP val).Readable ib ↔ ¬ (Instr.TRAP val).Misjudged ib)) := by
  obtain ⟨a, -⟩ := moves ib
  have check := checkTrap_iff width val
  obtain ⟨low, high⟩ := width
  have half := two_pow_half (show 0 < operCodeMoveBit ib by omega)
  have bound : 2 ^ operCodeMoveBit ib < 2 ^ 63 := Nat.pow_lt_pow_right (by decide) (by omega)
  have powers (j : Nat) : (2 : Int) ^ j = ((2 ^ j : Nat) : Int) := by simp
  refine ⟨check, fun passed => ?_⟩
  have inside := check.mp passed
  have plain : val.toInt = val.toNat := BitVec.toInt_eq_toNat_of_lt (by omega)
  change InRange _ val.toInt ↔ ¬ (_ ≤ val.toNat ∧ val.toNat < _)
  rw [InRange, plain, powers]
  omega

/-- For every instruction and every size of it: the checks of the maker accept just the
operands that fit, and the word of accepted operands parses back to them, if and only if
the operands are not misjudged. -/
theorem maker_parser_inverse_iff (ib : Nat) (width : Width ib) (x : Instr) :
    (x.checks ib ↔ x.Fits ib) ∧ (x.checks ib → parse ib (x.make ib) = x) ↔ ¬ x.Misjudged ib := by
  by_cases trapped : ∃ val, x = .TRAP val
  · obtain ⟨val, rfl⟩ := trapped
    obtain ⟨agree, back⟩ := checks_trap_iff width val
    constructor
    · rintro ⟨-, inverse⟩ misjudged
      have passed : (Instr.TRAP val).checks ib := agree.mpr misjudged.2
      have readable := parse_readable width ((Instr.TRAP val).make ib)
      rw [inverse passed] at readable
      exact (back passed).mp readable misjudged
    · intro judged
      exact ⟨agree, fun passed => parse_make width ((back passed).mpr judged)⟩
  · have other : ∀ val, x.operands ≠ .T val := by
      intro val same
      cases x <;> cases same
      exact trapped ⟨_, rfl⟩
    have judge := checks_fits_iff width x.operands other
    constructor
    · rintro ⟨agree, -⟩
      exact judge.mp agree
    · intro judged
      have agree := judge.mpr judged
      refine ⟨agree, fun passed => parse_make width ?_⟩
      have fits := agree.mp passed
      unfold Instr.Readable
      cases layout : x.operands with
      | T val => exact absurd layout (other val)
      | _ =>
        rw [layout] at fits
        exact fits

theorem maker_parser_inverse_add :
    ((Instr.ADD_I 1 2 3).checks 16 ↔ (Instr.ADD_I 1 2 3).Fits 16) ∧
      ((Instr.ADD_I 1 2 3).checks 16 → parse 16 ((Instr.ADD_I 1 2 3).make 16) = .ADD_I 1 2 3) := by
  refine (maker_parser_inverse_iff 16 ⟨by decide, by decide⟩ (.ADD_I 1 2 3)).mpr ?_
  have inside : ¬ Between 5 3 := by
    unfold Between
    decide
  exact fun misjudged => inside misjudged.2.2

/-- The checks of LEA pass the offset 300, which the word returns as -212, and the checks of
LDR refuse the offset -32, which fits. -/
theorem checks_misjudge :
    (Instr.LEA 0 300).checks 16 ∧ parse 16 ((Instr.LEA 0 300).make 16) = .LEA 0 (-212) ∧
      ¬ (Instr.LDR 0 0 (-32)).checks 16 ∧
      parse 16 ((Instr.LDR 0 0 (-32)).make 16) = .LDR 0 0 (-32) := by
  decide +kernel

end checks

end LC3Tools.Maker
