import LC3Tools.Sim.MakerInverse
import LC3Tools.Sim.Executer
import LC3Tools.Sim.Decode

/-! `LC3_INSTR_CONVERT` takes a word apart with the parser of one size and puts it together
with the makers of another, so the operands are the same and so is every step. -/
namespace LC3Tools.Maker
open InstrParser Converter BitFields Sim

section
variable {ib ib' w : Nat} {H : Type} [Host H w]

theorem parse_opcode (ib : Nat) (i : BitVec 64) :
    (parse ib i).opcode = Opcode.ofCode (operCode ib i).toNat := by
  unfold parse
  cases Opcode.ofCode (operCode ib i).toNat with
  | ADD | AND =>
    by_cases flag : intAfterNum2Flag ib i ≠ 0
    · simp only [if_pos flag, Instr.opcode]
    · simp only [if_neg flag, Instr.opcode]
  | JSR =>
    by_cases flag : intAfterOperFlag ib i ≠ 0
    · simp only [if_pos flag, Instr.opcode]
    · simp only [if_neg flag, Instr.opcode]
  | _ => rfl

theorem opcodeBits_ofCode {code : BitVec 64} (small : code.toNat < 16) :
    opcodeBits (Opcode.ofCode code.toNat) = code := by
  have all : ∀ n : Fin 16, opcodeBits (Opcode.ofCode n.val) = BitVec.ofNat 64 n.val := by decide
  rw [all ⟨code.toNat, small⟩]
  simp

theorem instrConvert_eq (i : BitVec 64) : instrConvert ib ib' i = (parse ib i).make ib' := by
  have small : (operCode ib i).toNat < 16 := field_lt (k := 4) (by decide)
  have bits := opcodeBits_ofCode small
  cases code : Opcode.ofCode (operCode ib i).toNat with
  | ADD | AND =>
    rw [code] at bits
    by_cases flag : intAfterNum2Flag ib i ≠ 0
    · simp only [instrConvert, parse, code, if_pos flag, Instr.make, Instr.operands, Instr.opcode,
        Operands.make, bits]
    · simp only [instrConvert, parse, code, if_neg flag, Instr.make, Instr.operands, Instr.opcode,
        Operands.make, bits]
  | JSR =>
    rw [code] at bits
    by_cases flag : intAfterOperFlag ib i ≠ 0
    · simp only [instrConvert, parse, code, if_pos flag, Instr.make, Instr.operands, Instr.opcode,
        Operands.make, bits]
    · simp only [instrConvert, parse, code, if_neg flag, Instr.make, Instr.operands, Instr.opcode,
        Operands.make, bits]
  | _ =>
    rw [code] at bits
    simp only [instrConvert, parse, code, Instr.make, Instr.operands, Instr.opcode,
      Operands.make, bits]

theorem regNum3_of_uint (width : Width ib) (i : BitVec 64) :
    regNum3 i = field 0 3 (uintAfterParam ib i) := by
  obtain ⟨a, b, c, d⟩ := moves ib
  obtain ⟨low, high⟩ := width
  rw [regNum3_eq]
  exact (field_zero_field (by omega) (by omega)).symm

theorem execute_of_parse (width : Width ib) (width' : Width ib') {instr instr' : BitVec w}
    (same : parse ib (instr.setWidth 64) = parse ib' (instr'.setWidth 64))
    (stop : instr = 0 ↔ instr' = 0) (s : State H w) :
    executeOneInstruction ib instr s = executeOneInstruction ib' instr' s := by
  have op : Opcode.ofCode (operCode ib (instr.setWidth 64)).toNat =
      Opcode.ofCode (operCode ib' (instr'.setWidth 64)).toNat := by
    rw [← parse_opcode, ← parse_opcode, same]
  cases code : Opcode.ofCode (operCode ib (instr.setWidth 64)).toNat with
  | BR =>
    rw [code] at op
    simp only [parse, code, ← op, Instr.BR.injEq] at same
    obtain ⟨reg1, offset⟩ := same
    simp only [executeOneInstruction, code, ← op, reg1, offset, stop]
  | ADD | AND =>
    rw [code] at op
    simp only [parse, code, ← op] at same
    split at same <;> split at same <;>
      simp only [Instr.ADD_I.injEq, Instr.ADD_R.injEq, Instr.AND_I.injEq, Instr.AND_R.injEq,
        reduceCtorEq] at same
    all_goals
      rename_i flag flag'
      obtain ⟨reg1, reg2, third⟩ := same
      simp only [executeOneInstruction, code, ← op, reg1, reg2, third, flag, flag', if_true,
        if_false,
        not_false_eq_true, ne_eq]
  | LD | ST | LDI | STI | LEA =>
    rw [code] at op
    simp only [parse, code, ← op, Instr.LD.injEq, Instr.ST.injEq, Instr.LDI.injEq, Instr.STI.injEq,
      Instr.LEA.injEq] at same
    obtain ⟨reg1, offset⟩ := same
    simp only [executeOneInstruction, code, ← op, reg1, offset]
  | JSR =>
    rw [code] at op
    simp only [parse, code, ← op] at same
    split at same <;> split at same <;>
      simp only [Instr.JSR_I.injEq, Instr.JSR_R.injEq, reduceCtorEq] at same
    all_goals
      rename_i flag flag'
      simp only [executeOneInstruction, code, ← op, same, flag, flag', if_true, if_false,
        not_false_eq_true, ne_eq]
  | LDR | STR | RTI =>
    rw [code] at op
    simp only [parse, code, ← op, Instr.LDR.injEq, Instr.STR.injEq, Instr.RTI.injEq] at same
    obtain ⟨reg1, reg2, offset⟩ := same
    simp only [executeOneInstruction, code, ← op, reg1, reg2, offset]
  | NOT =>
    rw [code] at op
    simp only [parse, code, ← op, Instr.NOT.injEq] at same
    obtain ⟨reg1, reg2⟩ := same
    simp only [executeOneInstruction, code, ← op, reg1, reg2]
  | JMP =>
    rw [code] at op
    simp only [parse, code, ← op, Instr.JMP.injEq] at same
    simp only [executeOneInstruction, code, ← op, same]
  | RES =>
    rw [code] at op
    simp only [parse, code, ← op, Instr.RES.injEq] at same
    obtain ⟨reg1, reg2, par, count⟩ := same
    have reg3 : regNum3 (instr.setWidth 64) = regNum3 (instr'.setWidth 64) := by
      rw [regNum3_of_uint width, regNum3_of_uint width', count]
    simp only [executeOneInstruction, code, ← op, reg1, reg2, reg3, par, count]
  | TRAP =>
    rw [code] at op
    simp only [parse, code, ← op, Instr.TRAP.injEq] at same
    simp only [executeOneInstruction, code, ← op, same]

end

section convert
variable {ib ib' : Nat}

theorem readable_mono (less : ib ≤ ib') {x : Instr} (readable : x.Readable ib) :
    x.Readable ib' := by
  have moves := moves ib
  have moves' := Maker.moves ib'
  have larger (n : Nat) {k m : Nat} (small : n < 2 ^ k) (le : k ≤ m) : n < 2 ^ m :=
    Nat.lt_of_lt_of_le small (Nat.pow_le_pow_right (by decide) le)
  cases x with
  | BR | LD | ST | LDI | STI | LEA => exact ⟨readable.1, readable.2.mono (by omega)⟩
  | ADD_I | AND_I | LDR | STR | RTI =>
    exact ⟨readable.1, readable.2.1, readable.2.2.mono (by omega)⟩
  | ADD_R | AND_R | NOT | JMP | JSR_R => exact readable
  | JSR_I | TRAP => exact InRange.mono readable (by omega)
  | RES =>
    exact ⟨readable.1, readable.2.1, readable.2.2.1, larger _ readable.2.2.2 (by omega)⟩

theorem parse_convert (width : Width ib) (width' : Width ib') (less : ib ≤ ib') (i : BitVec 64) :
    parse ib' (instrConvert ib ib' i) = parse ib i := by
  rw [instrConvert_eq]
  exact parse_make width' (readable_mono less (parse_readable width i))

theorem make_lt (width : Width ib) {x : Instr} (readable : x.Readable ib) :
    (x.make ib).toNat < 2 ^ ib := by
  obtain ⟨a, b, c, d⟩ := moves ib
  obtain ⟨low, high⟩ := width
  have code := opcodeBits_lt x.opcode
  have shifted {v : BitVec 64} {k q : Nat} (small : v.toNat < 2 ^ k) (inside : q + k ≤ ib) :
      (v <<< q).toNat < 2 ^ ib := by
    have joined := join_lt small (show (0#64).toNat < 2 ^ q from Nat.two_pow_pos q)
    rw [BitVec.or_zero] at joined
    exact Nat.lt_of_lt_of_le joined (Nat.pow_le_pow_right (by decide) inside)
  have masked (v : BitVec 64) {k : Nat} (inside : k < ib) : (v &&& lowMask k).toNat < 2 ^ ib :=
    Nat.lt_of_lt_of_le (and_mask_lt (k := k) (by omega))
      (Nat.pow_le_pow_right (by decide) (by omega))
  have oper : (opcodeBits x.opcode <<< operCodeMoveBit ib).toNat < 2 ^ ib :=
    shifted code (by omega)
  have reg1 {v : BitVec 64} (small : v.toNat < 2 ^ 3) : (v <<< regNum1MoveBit ib).toNat < 2 ^ ib :=
    shifted small (by omega)
  have reg2 {v : BitVec 64} (small : v.toNat < 2 ^ 3) : (v <<< regNum2MoveBit ib).toNat < 2 ^ ib :=
    shifted small (by omega)
  have flag {q : Nat} (inside : q + 1 ≤ ib) : (1#64 <<< q).toNat < 2 ^ ib :=
    shifted (k := 1) (by decide) inside
  have both {u v : BitVec 64} (first : u.toNat < 2 ^ ib) (second : v.toNat < 2 ^ ib) :
      (u ||| v).toNat < 2 ^ ib := by
    rw [BitVec.toNat_or]
    exact Nat.or_lt_two_pow first second
  cases x with
  | BR | LD | ST | LDI | STI | LEA =>
    exact both (both oper (reg1 readable.1)) (masked _ (by omega))
  | ADD_I | AND_I =>
    exact both (both (both (both oper (reg1 readable.1)) (reg2 readable.2.1)) (flag (by omega)))
      (masked _ (by omega))
  | ADD_R | AND_R =>
    have third := Nat.lt_of_lt_of_le readable.2.2
      (Nat.pow_le_pow_right (show 0 < 2 by decide) (show 3 ≤ ib by omega))
    exact both (both (both oper (reg1 readable.1)) (reg2 readable.2.1)) third
  | LDR | STR | RTI =>
    exact both (both (both oper (reg1 readable.1)) (reg2 readable.2.1)) (masked _ (by omega))
  | NOT => exact both (both oper (reg1 readable.1)) (reg2 readable.2)
  | JMP | JSR_R => exact both oper (reg2 readable)
  | JSR_I => exact both (both oper (flag (by omega))) (masked _ (by omega))
  | RES =>
    have param := shifted (q := paramAfterNum2MoveBit ib) (k := 3) readable.2.2.1 (by omega)
    exact both (both (both (both oper (reg1 readable.1)) (reg2 readable.2.1)) param)
      (masked _ (by omega))
  | TRAP => exact both oper (masked _ (by omega))

theorem fits_checks (width : Width ib) {x : Operands} (other : ∀ val, x ≠ .T val)
    (readable : x.Readable ib) : x.checks ib ↔ ¬ x.Misjudged ib := by
  have fits : x.Fits ib := by
    cases x with
    | T val => exact absurd rfl (other val)
    | _ => exact readable
  rw [← checks_fits_iff width x other]
  simp [fits]

/-- Not the lowest offset behind two registers, and no vector with a sign. -/
def Operands.Accepted (ib : Nat) : Operands → Prop
  | .RRI _ _ val => val.toInt ≠ -2 ^ (regNum2MoveBit ib - 1)
  | .T val => 0 ≤ val.toInt
  | _ => True

theorem readable_checks (width : Width ib) {x : Operands} (readable : x.Readable ib) :
    x.checks ib ↔ x.Accepted ib := by
  obtain ⟨a, b, c, d⟩ := moves ib
  obtain ⟨low, high⟩ := width
  have judged := fun other => fits_checks ⟨low, high⟩ other readable
  cases x with
  | T val =>
    have half := two_pow_half (show 0 < operCodeMoveBit ib by omega)
    have bound : 2 ^ operCodeMoveBit ib < 2 ^ 63 := Nat.pow_lt_pow_right (by decide) (by omega)
    have powers (j : Nat) : (2 : Int) ^ j = ((2 ^ j : Nat) : Int) := by simp
    have small := val.isLt
    obtain ⟨least, most⟩ := readable
    simp only [Operands.checks, checkTrap_iff ⟨low, high⟩, Operands.Accepted]
    rw [powers, BitVec.toInt_eq_toNat_cond] at least most
    rw [BitVec.toInt_eq_toNat_cond]
    split at least <;> split <;> omega
  | RRI num1 num2 val =>
    rw [judged (by simp)]
    simp [Operands.Misjudged, Operands.Accepted, readable.1, readable.2.1]
  | RRPI num1 num2 param val =>
    obtain ⟨first, second, third, inside⟩ := readable
    have bound : 2 ^ paramAfterNum2MoveBit ib < 2 ^ 63 :=
      Nat.pow_lt_pow_right (by decide) (by omega)
    have plain : param.toInt = param.toNat := BitVec.toInt_eq_toNat_of_lt (by omega)
    have plain' : val.toInt = val.toNat := BitVec.toInt_eq_toNat_of_lt (by omega)
    simp only [judged (by simp), Operands.Accepted, iff_true]
    rintro ⟨-, -, -, -, negative⟩
    omega
  | RI num1 val =>
    simp only [judged (by simp), Operands.Accepted, iff_true]
    exact fun misjudged => ((between_iff (by omega) _).mp misjudged.2).2 readable.2
  | RRIWithFlag num1 num2 val =>
    simp only [judged (by simp), Operands.Accepted, iff_true]
    exact fun misjudged => ((between_iff (by omega) _).mp misjudged.2.2).2 readable.2.2
  | IWithFlag val =>
    simp only [judged (by simp), Operands.Accepted, iff_true]
    exact fun misjudged => ((between_iff (by omega) _).mp misjudged).2 readable
  | RRR | RR | R2 =>
    simp only [judged (by simp), Operands.Accepted, iff_true]
    exact fun misjudged => misjudged

end convert

section narrow
variable {ib : Nat}

/-- The offset -32 of LDR, STR or RTI. -/
def LowestOffset (i : BitVec 16) : Prop :=
  (i >>> 12 = 6#16 ∨ i >>> 12 = 7#16 ∨ i >>> 12 = 8#16) ∧ i &&& 0x3f#16 = 0x20#16

theorem width16 : Width 16 := ⟨by decide, by decide⟩

theorem offset_lowest (i : BitVec 16) :
    (intAfterNum2 16 (i.setWidth 64)).toInt = -32 ↔ i &&& 0x3f#16 = 0x20#16 := by
  have value : (intAfterNum2 16 (i.setWidth 64)).toInt =
      if (i.setWidth 64).toNat % 2 ^ 6 < 2 ^ 5 then ((i.setWidth 64).toNat % 2 ^ 6 : Int)
        else ((i.setWidth 64).toNat % 2 ^ 6 : Int) - 2 ^ 6 :=
    signed_toInt (k := 6) (by decide) (by decide) _
  have low : i &&& 0x3f#16 = 0x20#16 ↔ i.toNat % 64 = 32 := by
    have number : (i &&& 0x3f#16).toNat = i.toNat % 64 := and_mask_toNat (k := 6) (by decide) i
    constructor
    · intro same
      rw [← number, same]
      rfl
    · intro same
      apply BitVec.eq_of_toNat_eq
      rw [number, same]
      rfl
  rw [value, low, widen_toNat]
  split <;> omega

theorem opcode_narrow (i : BitVec 16) :
    (parse 16 (i.setWidth 64)).opcode = Opcode.ofCode (i >>> 12).toNat := by
  rw [parse_opcode, operCode_narrow]

theorem zero_of_parse {i : BitVec 16} (same : parse 16 (i.setWidth 64) = .BR 0 0) : i = 0 := by
  have op := opcode_narrow i
  rw [same] at op
  have code : i.toNat / 4096 = 0 := by
    have shifted : (i >>> 12).toNat = i.toNat / 4096 := by
      rw [BitVec.toNat_ushiftRight, Nat.shiftRight_eq_div_pow]
    have zero : ∀ n, Opcode.BR = Opcode.ofCode n → n = 0 := by
      intro n branch
      unfold Opcode.ofCode at branch
      split at branch <;> first | rfl | cases branch
    rw [← shifted]
    exact zero _ op
  have none : Opcode.ofCode (operCode 16 (i.setWidth 64)).toNat = .BR := by
    rw [operCode_narrow]
    exact op.symm
  simp only [parse, none, Instr.BR.injEq] at same
  obtain ⟨flags, offset⟩ := same
  have first : (i.setWidth 64).toNat / 512 % 8 = 0 := by
    have number := congrArg BitVec.toNat flags
    have shifted : (regNum1 16 (i.setWidth 64)).toNat = (i.setWidth 64 >>> 9).toNat % 8 :=
      and_mask_toNat (k := 3) (by decide) _
    rwa [shifted, BitVec.toNat_ushiftRight, Nat.shiftRight_eq_div_pow] at number
  have rest : (i.setWidth 64).toNat % 512 = 0 := by
    have value : (intAfterNum1 16 (i.setWidth 64)).toInt =
        if (i.setWidth 64).toNat % 2 ^ 9 < 2 ^ 8 then ((i.setWidth 64).toNat % 2 ^ 9 : Int)
          else ((i.setWidth 64).toNat % 2 ^ 9 : Int) - 2 ^ 9 :=
      signed_toInt (k := 9) (by decide) (by decide) _
    have zero : (0 : BitVec 64).toInt = 0 := by decide
    rw [offset, zero] at value
    split at value <;> omega
  rw [widen_toNat] at first rest
  apply BitVec.eq_of_toNat_eq
  have small := i.isLt
  change i.toNat = 0
  omega

theorem vector_nonneg {i : BitVec 16} (vector : i &&& 0xf00#16 = 0#16) :
    0 ≤ (trap 16 (i.setWidth 64)).toInt := by
  have value : (trap 16 (i.setWidth 64)).toInt =
      if (i.setWidth 64).toNat % 2 ^ 12 < 2 ^ 11 then ((i.setWidth 64).toNat % 2 ^ 12 : Int)
        else ((i.setWidth 64).toNat % 2 ^ 12 : Int) - 2 ^ 12 :=
    signed_toInt (k := 12) (by decide) (by decide) _
  have top : i.getLsbD 11 = false := by
    have bit := congrArg (BitVec.getLsbD · 11) vector
    simpa using bit
  have half : i.toNat % 2 ^ 12 < 2 ^ 11 := by
    have digit : i.toNat / 2048 % 2 = 0 := by
      have tested : i.toNat.testBit 11 = false := top
      rw [Nat.testBit_eq_decide_div_mod_eq] at tested
      simp at tested
      omega
    omega
  rw [value, widen_toNat, if_pos half]
  omega

theorem ofCode_offset {n : Nat} (small : n < 16) : n = 6 ∨ n = 7 ∨ n = 8 ↔
    Opcode.ofCode n = .LDR ∨ Opcode.ofCode n = .STR ∨ Opcode.ofCode n = .RTI := by
  have all : ∀ n : Fin 16, (n.val = 6 ∨ n.val = 7 ∨ n.val = 8 ↔
      Opcode.ofCode n = .LDR ∨ Opcode.ofCode n = .STR ∨ Opcode.ofCode n = .RTI) := by decide
  exact all ⟨n, small⟩

theorem ofCode_trap {n : Nat} (small : n < 16) (trap : Opcode.ofCode n = .TRAP) : n = 15 := by
  have all : ∀ n : Fin 16, Opcode.ofCode n = .TRAP → n.val = 15 := by decide
  exact all ⟨n, small⟩ trap

theorem eq_ofNat_iff (c : BitVec 16) {n : Nat} (bound : n < 2 ^ 16) :
    c = BitVec.ofNat 16 n ↔ c.toNat = n := by
  constructor
  · intro same
    rw [same, BitVec.toNat_ofNat, Nat.mod_eq_of_lt bound]
  · intro same
    apply BitVec.eq_of_toNat_eq
    rw [same, BitVec.toNat_ofNat, Nat.mod_eq_of_lt bound]

theorem narrow_checks {i : BitVec 16} (vector : i >>> 12 = 15#16 → i &&& 0xf00#16 = 0#16) :
    (parse 16 (i.setWidth 64)).checks 16 ↔ ¬ LowestOffset i := by
  have readable := parse_readable width16 (i.setWidth 64)
  have check := readable_checks width16 readable
  have small : (i >>> 12).toNat < 16 := by
    have bound := i.isLt
    rw [BitVec.toNat_ushiftRight, Nat.shiftRight_eq_div_pow]
    omega
  have codes : (i >>> 12 = 6#16 ∨ i >>> 12 = 7#16 ∨ i >>> 12 = 8#16) ↔
      (i >>> 12).toNat = 6 ∨ (i >>> 12).toNat = 7 ∨ (i >>> 12).toNat = 8 := by
    rw [eq_ofNat_iff _ (by decide), eq_ofNat_iff _ (by decide), eq_ofNat_iff _ (by decide)]
  rw [Instr.checks, check, LowestOffset, codes, ofCode_offset small, ← opcode_narrow,
    ← offset_lowest]
  have op := parse_opcode 16 (i.setWidth 64)
  cases code : Opcode.ofCode (operCode 16 (i.setWidth 64)).toNat with
  | LDR | STR | RTI =>
    simp only [parse, code, Instr.operands, Instr.opcode, Operands.Accepted, true_or, or_true,
      true_and]
    exact Iff.rfl
  | TRAP =>
    have fifteen : i >>> 12 = 15#16 := by
      rw [eq_ofNat_iff _ (by decide)]
      rw [operCode_narrow] at code
      exact ofCode_trap small code
    simp only [parse, code, Instr.operands, Instr.opcode, Operands.Accepted, reduceCtorEq, or_false,
      false_and, not_false_eq_true, iff_true]
    exact vector_nonneg (vector fifteen)
  | ADD | AND =>
    by_cases flag : intAfterNum2Flag 16 (i.setWidth 64) ≠ 0
    · simp only [parse, code, if_pos flag, Instr.operands, Instr.opcode, Operands.Accepted,
        reduceCtorEq,
        or_false, false_and, not_false_eq_true]
    · simp only [parse, code, if_neg flag, Instr.operands, Instr.opcode, Operands.Accepted,
        reduceCtorEq,
        or_false, false_and, not_false_eq_true]
  | JSR =>
    by_cases flag : intAfterOperFlag 16 (i.setWidth 64) ≠ 0
    · simp only [parse, code, if_pos flag, Instr.operands, Instr.opcode, Operands.Accepted,
        reduceCtorEq,
        or_false, false_and, not_false_eq_true]
    · simp only [parse, code, if_neg flag, Instr.operands, Instr.opcode, Operands.Accepted,
        reduceCtorEq,
        or_false, false_and, not_false_eq_true]
  | _ =>
    simp only [parse, code, Instr.operands, Instr.opcode, Operands.Accepted, reduceCtorEq, or_false,
      false_and, not_false_eq_true]

end narrow

section wide
variable {ib w : Nat} {i : BitVec 16}

theorem convert_zero_iff (width : Width ib) (zero : instrConvert 16 ib 0 = 0)
    (back : parse ib 0 = .BR 0 0) : instrConvert 16 ib (i.setWidth 64) = 0 ↔ i = 0 := by
  constructor
  · intro none
    have same := parse_convert width16 width width.low (i.setWidth 64)
    rw [none, back] at same
    exact zero_of_parse same.symm
  · rintro rfl
    exact zero

theorem setWidth_eq_zero {x : BitVec 64} (small : x.toNat < 2 ^ w) : x.setWidth w = 0 ↔ x = 0 := by
  constructor
  · intro none
    have number := congrArg BitVec.toNat none
    rw [BitVec.toNat_setWidth, Nat.mod_eq_of_lt small] at number
    apply BitVec.eq_of_toNat_eq
    rw [number]
    simp
  · rintro rfl
    simp

theorem setWidth_back {x : BitVec 64} (small : x.toNat < 2 ^ w) :
    (x.setWidth w).setWidth 64 = x := by
  apply BitVec.eq_of_toNat_eq
  rw [BitVec.toNat_setWidth, BitVec.toNat_setWidth, Nat.mod_eq_of_lt small,
    Nat.mod_eq_of_lt x.isLt]

/-- For every 16-bit word, with an eight-bit vector if it is a TRAP, and for both wide sizes:
the converted word reads as the same instruction with the same operands, every step of it is
the step of the word itself, and converted back it reads as that instruction again. The
checks of the maker pass on the way back just when LDR, STR or RTI has no offset of -32. -/
theorem convert_preserves (ib : Nat) (wide : ib = 32 ∨ ib = 64) (i : BitVec 16)
    (vector : i >>> 12 = 15#16 → i &&& 0xf00#16 = 0#16) :
    parse ib (instrConvert 16 ib (i.setWidth 64)) = parse 16 (i.setWidth 64) ∧
      (∀ (w : Nat) (H : Type) [Host H w] (s : State H w), ib ≤ w → w ≤ 64 →
        executeOneInstruction ib ((instrConvert 16 ib (i.setWidth 64)).setWidth w) s =
          executeOneInstruction 16 (i.setWidth w) s) ∧
      parse 16 (instrConvert ib 16 (instrConvert 16 ib (i.setWidth 64))) = parse 16
        (i.setWidth 64) ∧
      ((parse ib (instrConvert 16 ib (i.setWidth 64))).checks 16 ↔ ¬ LowestOffset i) := by
  have width : Width ib := by
    rcases wide with rfl | rfl <;> exact ⟨by decide, by decide⟩
  have same := parse_convert width16 width width.low (i.setWidth 64)
  have readable := parse_readable width16 (i.setWidth 64)
  refine ⟨same, ?_, ?_, ?_⟩
  · intro w H host s holds fits
    have small : (instrConvert 16 ib (i.setWidth 64)).toNat < 2 ^ w := by
      rw [instrConvert_eq]
      exact Nat.lt_of_lt_of_le (make_lt width (readable_mono width.low readable))
        (Nat.pow_le_pow_right (by decide) holds)
    have narrow : (i.setWidth 64).toNat < 2 ^ w := by
      rw [widen_toNat]
      exact Nat.lt_of_lt_of_le i.isLt
        (Nat.pow_le_pow_right (by decide) (Nat.le_trans width.low holds))
    have inner : (i.setWidth 64).setWidth w = i.setWidth w :=
      BitVec.setWidth_setWidth_of_le _ fits
    have stop : (instrConvert 16 ib (i.setWidth 64)).setWidth w = 0 ↔
      (i.setWidth 64).setWidth w = 0 := by
      rw [setWidth_eq_zero small, setWidth_eq_zero narrow]
      have zero : instrConvert 16 ib 0 = 0 ∧ parse ib 0 = .BR 0 0 := by
        rcases wide with rfl | rfl <;> decide
      rw [convert_zero_iff width zero.1 zero.2]
      constructor
      · rintro rfl
        rfl
      · intro none
        exact zero_of_parse (by rw [none]; decide)
    have step : executeOneInstruction ib ((instrConvert 16 ib (i.setWidth 64)).setWidth w) s =
        executeOneInstruction 16 ((i.setWidth 64).setWidth w) s := by
      apply execute_of_parse width width16 _ stop
      rw [setWidth_back small, setWidth_back narrow]
      exact same
    rw [step, inner]
  · rw [instrConvert_eq, same]
    exact parse_make width16 readable
  · rw [same]
    exact narrow_checks vector

theorem convert_preserves_add :
    parse 32 (instrConvert 16 32 0x1261#64) = parse 16 0x1261#64 :=
  (convert_preserves 32 (.inl rfl) 0x1261#16 (by decide)).1

theorem lowest_offset_refused :
    (parse 16 0x6020#64).checks 32 ∧ ¬ (parse 32 (instrConvert 16 32 0x6020#64)).checks 16 := by
  decide +kernel

end wide

end LC3Tools.Maker
