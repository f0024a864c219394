import LC3Tools.Assembler.Layout
import LC3Tools.Lcc.ShiftText
import LC3Tools.Sim.Loader

/-! A compiled shift from the rule that prints it to the register it leaves: the word the
assembler packs, the fields the simulator unpacks from it, and the C++ shift of an
unsigned register. -/
namespace LC3Tools.Lcc
open Flex Assembler Sim InstrParser

/-- The operation of the extension a shift selects. -/
def ShiftOp.res : ShiftOp → ShiftCount → ResOpcode
  | .LSHI, .reg _ | .LSHU, .reg _ => .SLL
  | .RSHI, .reg _ | .RSHU, .reg _ => .SRA
  | .LSHI, .uc4 _ | .LSHU, .uc4 _ => .SLLI
  | .RSHI, .uc4 _ | .RSHU, .uc4 _ => .SRAI

def resCode : ResOpcode → BitVec 64
  | .SLL => dtuSLL | .SRA => dtuSRA | .DIV => dtuDIV | .MOD => dtuMOD | .MUL => dtuMUL
  | .SLLI => dtuSLLI | .SRAI => dtuSRAI

/-- The three bits the assembler keeps of the count. -/
def ShiftCount.field : ShiftCount → Fin 8
  | .reg n => n
  | .uc4 a => Fin.ofNat 8 a

/-- A word of the extension in the 16-bit format. -/
def resWord (op : ResOpcode) (r1 r2 low : BitVec 64) : BitVec 64 :=
  0xd000 ||| ((r1 <<< 9) ||| (r2 <<< 6)) ||| (resCode op <<< 3) ||| low

def registerField (n : Fin 8) : BitVec 64 := BitVec.ofNat 64 n

section operands
variable {tail : List Byte}

theorem nextOperand_word {word : List Byte} {x : Byte}
    (plain : ∀ a ∈ word, (a ≠ byte ',' && !isspace a) = true) (printed : isspace x = false) :
    nextOperand (word ++ bytes ", " ++ x :: tail) = x :: tail := by
  have skipped : (word ++ bytes ", " ++ x :: tail).dropWhile (fun a => a ≠ byte ',' && !isspace a) =
      byte ',' :: byte ' ' :: x :: tail := by
    rw [List.append_assoc, List.dropWhile_append_of_pos plain]
    rfl
  unfold nextOperand
  rw [skipped]
  have comma : isspace (byte ',') = false := by decide
  have blank : isspace (byte ' ') = true := by decide
  simp [comma, blank, printed]

theorem regName_plain : ∀ n, ∀ a ∈ regName n, (a ≠ byte ',' && !isspace a) = true := by
  intro n
  have all : ∀ n : Fin 8, (regName n).all (fun a => a ≠ byte ',' && !isspace a) := by decide +kernel
  exact List.all_eq_true.mp (all n)

theorem regDigit_name : ∀ n : Fin 8, regDigit (regName n ++ tail) = registerField n := by
  intro n
  have text : ∀ n : Fin 8, regName n = [byte 'R', BitVec.ofNat 8 (48 + n.val)] := by decide +kernel
  have value : ∀ n : Fin 8, ((BitVec.ofNat 8 (48 + n.val)).signExtend 64) - 48 =
    registerField n := by
    decide +kernel
  rw [text, ← value]
  rfl

theorem operandText_eq (c s : Fin 8) (count : ShiftCount) :
    (operandText c s count ++ tail).dropWhile isspace =
      regName c ++ bytes ", " ++ (regName s ++ bytes ", " ++ (count.text ++ tail)) := by
  have blank : isspace (byte ' ') = true := by decide
  have first : ∀ n : Fin 8, regName n = byte 'R' :: decimal n := fun _ => rfl
  have printed : isspace (byte 'R') = false := by decide
  have text : operandText c s count ++ tail = byte ' ' ::
      (regName c ++ bytes ", " ++ (regName s ++ bytes ", " ++ (count.text ++ tail))) := by
    simp only [operandText, List.append_assoc]
    rfl
  rw [text, List.dropWhile_cons_of_pos blank, first c]
  simp only [List.cons_append, List.dropWhile_cons, printed, Bool.false_eq_true, if_false]

theorem text_printed (count : ShiftCount) :
    ∃ x rest, count.text = x :: rest ∧ isspace x = false := by
  cases count with
  | reg n => exact ⟨byte 'R', decimal n, rfl, by decide⟩
  | uc4 a => exact ⟨byte '#', decimal a, rfl, by decide⟩

theorem operands_found (tail : List Byte) (c s : Fin 8) (count : ShiftCount) :
    nextOperand ((operandText c s count ++ tail).dropWhile isspace) =
        regName s ++ bytes ", " ++ (count.text ++ tail) ∧
      nextOperand (regName s ++ bytes ", " ++ (count.text ++ tail)) = count.text ++ tail ∧
      regDigit ((operandText c s count ++ tail).dropWhile isspace) = registerField c ∧
      regDigit (regName s ++ bytes ", " ++ (count.text ++ tail)) = registerField s := by
  obtain ⟨x, rest, text, printed⟩ := text_printed count
  have letter : isspace (byte 'R') = false := by decide
  refine ⟨?_, ?_, ?_, ?_⟩
  · rw [operandText_eq]
    exact nextOperand_word (regName_plain c) letter
  · rw [text]
    exact nextOperand_word (regName_plain s) printed
  · rw [operandText_eq, List.append_assoc]
    exact regDigit_name c
  · rw [List.append_assoc]
    exact regDigit_name s

theorem readUnsigned_uc4 (tail : List Byte) (b : Build) (a : Fin 16) :
    readUnsignedVal b (bytes "#" ++ decimal a ++ lineFeed :: tail) 3 =
      if b = .bit16 ∧ 8 ≤ a.val then .error (bytes "constant outside of allowed range\n")
      else .ok (BitVec.ofNat 64 a) := by
  have read : strtol 10 (decimal a ++ lineFeed :: tail) = some (a.val : Int) :=
    strtol_decimal a fun d first => by
      cases first
      decide
  have raw : readRawVal b (bytes "#" ++ decimal a ++ lineFeed :: tail) = .ok
    (BitVec.ofNat 64 a) := by
    have lead : (bytes "#" ++ decimal a ++ lineFeed :: tail).head? = some (byte '#') := rfl
    have rest : (bytes "#" ++ decimal a ++ lineFeed :: tail).tail = decimal a ++ lineFeed :: tail :=
      rfl
    have other : ¬ (some (byte '#')).map tolower = some (byte 'x') := by decide
    have small : ∀ (b : Build) (a : Fin 16), b.handles64BitLongs (BitVec.ofInt 64 a.val) =
        BitVec.ofNat 64 a := by
      intro b
      cases b <;> decide
    simp only [readRawVal, lead, rest, if_neg other, or_true, if_true, read]
    rw [if_pos ⟨by omega, by omega⟩, small]
  have value : ∀ a : Fin 16, (BitVec.ofNat 64 a.val).toInt = a.val := by decide
  simp only [readUnsignedVal, raw, Except.bind, value,
    if_neg (Int.not_lt.mpr (Int.natCast_nonneg _))]
  cases b with
  | bit16 =>
    have limit : ∀ a : Fin 16, Build.bit16.checkOutOfRangeUnsigned (BitVec.ofNat 64 a.val) 3 =
        decide (8 ≤ a.val) := by decide
    simp [limit]
  | bit32 | bit32Wide | bit64Wide => simp [Build.checkOutOfRangeUnsigned]

end operands

/-- The word of the object file for an instruction in the 16-bit format. -/
def instrWord (b : Build) (v : BitVec 64) : BitVec 64 :=
  if b.instrBitCount ≠ 16 then
    ((Converter.instrConvert 16 b.instrBitCount v).setWidth b.registerBits).setWidth 64
  else v

/-- The instruction the simulator fetches for it, which the loader has swapped back. -/
def loadedWord (b : Build) (v : BitVec 64) : BitVec b.registerBits :=
  loadSwap b (b.swap (instrWord b v))

/-- An extension word of a format with `ib` bits as a number. -/
def packed (ib : Nat) (op : ResOpcode) (c s low : Fin 8) : Nat :=
  13 * 2 ^ (ib - 4) + c * 2 ^ (ib - 7) + s * 2 ^ (ib - 10) + (resCode op).toNat * 2 ^
    (ib - 13) + low

theorem resWord_packed : ∀ op ∈ [ResOpcode.SLL, .SRA, .SLLI, .SRAI], ∀ c s low : Fin 8,
    (resWord op (registerField c) (registerField s) (registerField low)).toNat =
      packed 16 op c s low := by
  decide +kernel

theorem makeInstr_packed : ∀ op ∈ [ResOpcode.SLL, .SRA, .SLLI, .SRAI], ∀ c s low : Fin 8,
    (Converter.makeInstrRRPI 32 13 (registerField c) (registerField s) (resCode op)
        (registerField low)).toNat = packed 32 op c s low ∧
      (Converter.makeInstrRRPI 64 13 (registerField c) (registerField s) (resCode op)
        (registerField low)).toNat = packed 64 op c s low := by
  decide +kernel

/-- The fields of an extension word of a format with `ib` bits. -/
structure Fields (ib : Nat) (i : BitVec 64) (op : ResOpcode) (c s low : Fin 8) : Prop where
  code : (operCode ib i).toNat = 13
  num1 : (regNum1 ib i).toNat = c
  num2 : (regNum2 ib i).toNat = s
  num3 : (regNum3 i).toNat = low
  param : (paramAfterNum2 ib i).toNat = (resCode op).toNat
  imm : (uintAfterParam ib i).toNat = low

theorem resCode_small (op : ResOpcode) : (resCode op).toNat < 8 := by
  cases op <;> decide

theorem fields_packed {ib : Nat} (size : ib = 16 ∨ ib = 32 ∨ ib = 64) {i : BitVec 64}
    {op : ResOpcode} {c s low : Fin 8} (value : i.toNat = packed ib op c s low) :
    Fields ib i op c s low := by
  have small := resCode_small op
  rcases size with rfl | rfl | rfl <;> constructor <;>
    simp (disch := decide) only [operCode, regNum1, regNum2, regNum3, paramAfterNum2,
      uintAfterParam,
      paramAfterNum2MoveBit, regNum2MoveBit, regNum1MoveBit, operCodeMoveBit, operCodeBitCount,
      regNumBitCount, paramBitCount, Nat.reduceSub, mask_toNat, BitVec.toNat_ushiftRight,
      Nat.shiftRight_eq_div_pow, value, packed] <;>
    omega

section loaded
variable {op : ResOpcode} (c s low : Fin 8)

theorem instrConvert_packed (shift : op ∈ [ResOpcode.SLL, .SRA, .SLLI, .SRAI]) {ib : Nat}
    (size : ib = 32 ∨ ib = 64) :
    (Converter.instrConvert 16 ib
      (resWord op (registerField c) (registerField s) (registerField low))).toNat =
        packed ib op c s low := by
  have fields := fields_packed (.inl rfl) (resWord_packed op shift c s low)
  have code : operCode 16 (resWord op (registerField c) (registerField s) (registerField low)) =
      13 :=
    BitVec.eq_of_toNat_eq fields.code
  have small (n : Fin 8) : n.val % 2 ^ 64 = n := Nat.mod_eq_of_lt (by omega)
  have num1 : regNum1 16 (resWord op (registerField c) (registerField s) (registerField low)) =
      registerField c := BitVec.eq_of_toNat_eq (fields.num1.trans (small c).symm)
  have num2 : regNum2 16 (resWord op (registerField c) (registerField s) (registerField low)) =
      registerField s := BitVec.eq_of_toNat_eq (fields.num2.trans (small s).symm)
  have param : paramAfterNum2 16
      (resWord op (registerField c) (registerField s) (registerField low)) = resCode op :=
    BitVec.eq_of_toNat_eq fields.param
  have imm : uintAfterParam 16
      (resWord op (registerField c) (registerField s) (registerField low)) =
      registerField low := BitVec.eq_of_toNat_eq (fields.imm.trans (small low).symm)
  obtain ⟨narrow, wide⟩ := makeInstr_packed op shift c s low
  simp only [Converter.instrConvert, code, num1, num2, param, imm]
  rcases size with rfl | rfl
  · exact narrow
  · exact wide

theorem packed_lt (op : ResOpcode) (ib : Nat) (size : ib = 16 ∨ ib = 32 ∨ ib = 64) :
    packed ib op c s low < 2 ^ ib := by
  have small := resCode_small op
  unfold packed
  rcases size with rfl | rfl | rfl <;> omega

theorem loadedWord_packed (shift : op ∈ [ResOpcode.SLL, .SRA, .SLLI, .SRAI]) (b : Build) :
    ((loadedWord b (resWord op (registerField c) (registerField s) (registerField low))).setWidth
      64).toNat = packed b.instrBitCount op c s low := by
  have value := resWord_packed op shift c s low
  have bound := packed_lt c s low op 16 (.inl rfl)
  have bound' := packed_lt c s low op 32 (.inr (.inl rfl))
  have bound'' := packed_lt c s low op 64 (.inr (.inr rfl))
  cases b with
  | bit16 =>
    have survives : SurvivesSwap16
        (resWord op (registerField c) (registerField s) (registerField low)) := by
      have signed := BitVec.toInt_eq_toNat_of_lt
        (x := resWord op (registerField c) (registerField s)
        (registerField low)) (by omega)
      rw [survivesSwap16_iff (by omega) (by omega)]
      omega
    have word : loadedWord .bit16
        (resWord op (registerField c) (registerField s) (registerField low)) =
        (resWord op (registerField c) (registerField s) (registerField low)).setWidth 16 :=
      (wordSwap16_swap16 _).trans survives
    simp only [word, Build.instrBitCount, Build.registerBits, BitVec.toNat_setWidth]
    omega
  | bit32 =>
    have word : loadedWord .bit32
        (resWord op (registerField c) (registerField s) (registerField low)) =
        (resWord op (registerField c) (registerField s) (registerField low)).setWidth 32 :=
      wordSwap32_swap32 _
    simp only [word, Build.instrBitCount, Build.registerBits, BitVec.toNat_setWidth]
    omega
  | bit32Wide =>
    have word : loadedWord .bit32Wide
        (resWord op (registerField c) (registerField s) (registerField low)) =
          (instrWord .bit32Wide
            (resWord op (registerField c) (registerField s) (registerField low))).setWidth 32 :=
      wordSwap32_swap32 _
    have converted := instrConvert_packed c s low shift (.inl rfl)
    rw [word, instrWord, if_pos (by decide)]
    simp only [Build.instrBitCount, Build.registerBits, BitVec.toNat_setWidth, converted]
    omega
  | bit64Wide =>
    have converted := instrConvert_packed c s low shift (.inr rfl)
    have word : loadedWord .bit64Wide
        (resWord op (registerField c) (registerField s) (registerField low)) =
          instrWord .bit64Wide (resWord op (registerField c) (registerField s)
            (registerField low)) :=
      rfl
    rw [word, instrWord, if_pos (by decide)]
    simp only [Build.instrBitCount, Build.registerBits, BitVec.toNat_setWidth, converted]
    omega

end loaded

theorem execute_loaded {H : Type} {b : Build} [Host H b.registerBits] {op : ResOpcode}
    (shift : op ∈ [ResOpcode.SLL, .SRA, .SLLI, .SRAI]) (c s low : Fin 8)
    (st : State H b.registerBits) :
    executeOneInstruction b.instrBitCount
        (loadedWord b (resWord op (registerField c) (registerField s) (registerField low))) st =
      (op.apply (st.regs.reg s) (st.regs.reg low) low).map fun v =>
        (.success, (st.setReg c v).setCC c) := by
  have size : b.instrBitCount = 16 ∨ b.instrBitCount = 32 ∨ b.instrBitCount = 64 := by
    cases b <;> decide
  have fields := fields_packed size (loadedWord_packed c s low shift b)
  have index {i : BitVec 64} {n : Fin 8} (same : i.toNat = n) : regIndex i = n := by
    rw [regIndex, same]
    exact Fin.ofNat_val_eq_self n
  have param : ResOpcode.ofParam (resCode op).toNat = some op := by
    cases op <;> rfl
  have res : Opcode.ofCode 13 = .RES := rfl
  simp only [executeOneInstruction, fields.code, res, fields.param, param, index fields.num1,
    index fields.num2, index fields.num3, fields.imm]

/-- Only the 16-bit assembler looks at the range of an unsigned number. -/
def Rejected (b : Build) : ShiftCount → Prop
  | .reg _ => False
  | .uc4 a => b = .bit16 ∧ 8 ≤ a.val

theorem storeInt_field (old : BitVec 64) : ∀ a : Fin 16,
    storeInt old (BitVec.ofNat 64 a) &&& 0x7 = registerField (Fin.ofNat 8 a) := by
  intro a
  have low : ∀ a : Fin 16, (BitVec.ofNat 64 a &&& 0xffffffff) &&& 0x7 =
      registerField (Fin.ofNat 8 a) := by decide
  have high : (old &&& 0xffffffff00000000) &&& 0x7 = 0 := by
    rw [BitVec.and_assoc]
    simp
  have split : storeInt old (BitVec.ofNat 64 a) &&& 0x7 =
      ((old &&& 0xffffffff00000000) &&& 0x7) ||| ((BitVec.ofNat 64 a &&& 0xffffffff) &&& 0x7) :=
    BitVec.and_or_distrib_right
  rw [split, high, low]
  simp

section generate
variable {b : Build} {t : AsmState b} {op : ShiftOp} {c s : Fin 8} {count : ShiftCount}
  {o1 tail : List Byte} {val : BitVec 64}

theorem generateOp_shift (c s : Fin 8) (count : ShiftCount) (o1 tail : List Byte) (val : BitVec 64)
    (here : t.op = op.opcode) :
    ∃ u val', generateOp t count.operands o1 (count.text ++ lineFeed :: tail) (registerField c)
        (registerField s) (regDigit (count.text ++ lineFeed :: tail)) val =
          writeInstructionValue u
            (resWord (op.res count) (registerField c) (registerField s) val') ∧
      OnlyError t u ∧ (Rejected b count → u.numErrors = t.numErrors + 1) ∧
      (¬ Rejected b count → u = t ∧ val' = registerField count.field) := by
  cases count with
  | reg n =>
    refine ⟨t, registerField n, ?_, .inl rfl, False.elim, fun _ => ⟨rfl, rfl⟩⟩
    have digit : regDigit ((ShiftCount.reg n).text ++ lineFeed :: tail) = registerField n :=
      regDigit_name n
    cases op <;> simp only [generateOp, here, ShiftOp.opcode, ShiftCount.operands, digit] <;> rfl
  | uc4 a =>
    have read := readUnsigned_uc4 tail b a
    by_cases rejected : b = .bit16 ∧ 8 ≤ a.val
    · rw [if_pos rejected] at read
      have errors := (rfl : (countError t (bytes "constant outside of allowed range\n")).numErrors =
        t.numErrors + 1)
      refine ⟨countError t (bytes "constant outside of allowed range\n"), val &&& 7, ?_,
        .inr ⟨_, rfl⟩, fun _ => errors, fun accepted => absurd rejected accepted⟩
      cases op <;> simp only [generateOp, here, ShiftOp.opcode, ShiftCount.operands,
        ShiftCount.text,
        readUnsignedInto, read] <;> rfl
    · rw [if_neg rejected] at read
      refine ⟨t, storeInt val (BitVec.ofNat 64 a) &&& 7, ?_, .inl rfl, fun r => absurd r rejected,
        fun _ => ⟨rfl, storeInt_field val a⟩⟩
      cases op <;> simp only [generateOp, here, ShiftOp.opcode, ShiftCount.operands,
        ShiftCount.text,
        readUnsignedInto, read] <;> rfl

theorem writeInstructionValue_room {v : BitVec 64} (room : (t.codeLoc + 1) % 0x10000 ≠ 0) :
    ∃ t', writeInstructionValue t v = .ok t' ∧ ValueWritten t t' (instrWord b v) := by
  have value : ∃ t', writeValue t (instrWord b v) = .ok t' := by
    simp only [writeValue, if_neg room]
    split
    · exact ⟨_, rfl⟩
    · split
      · exact ⟨_, rfl⟩
      · exact ⟨_, rfl⟩
  obtain ⟨t', wrote⟩ := value
  refine ⟨t', ?_, writeValue_ok wrote⟩
  rw [← wrote, writeInstructionValue, instrWord]
  split <;> rfl

/-- What a shift line leaves of the assembler's state. -/
structure ShiftActed (b : Build) (op : ShiftOp) (c s : Fin 8) (count : ShiftCount)
    (t t' : AsmState b) : Prop where
  rejected : Rejected b count → t'.numErrors ≠ t.numErrors
  accepted : ¬ Rejected b count → t'.numErrors = t.numErrors
  objout : ¬ Rejected b count → t'.objout = t.objout ++ if t.pass = .second then
    [b.swap (instrWord b
      (resWord (op.res count) (registerField c) (registerField s) (registerField count.field)))]
        else []

theorem shift_acted (op : ShiftOp) (c s : Fin 8) (count : ShiftCount) (stale : Stale)
    (started : t.sawOrig ≠ 0) (room : (t.codeLoc + 1) % 0x10000 ≠ 0)
    {word rest post : List Byte} :
    ∃ t', runPass stale t
        [⟨.opcode op.opcode, word, rest⟩,
          ⟨.generate count.operands, operandText c s count ++ [lineFeed], post⟩] = .ok t' ∧
      ShiftActed b op c s count t t' := by
  have format : (opFormatOk op.opcode).testBit count.operands.code := by
    cases op <;> cases count <;> simp only [ShiftOp.opcode, ShiftCount.operands] <;> decide
  have other : op.opcode ≠ .ORIG := by
    cases op <;> decide
  obtain ⟨second, third, one, two⟩ := operands_found (lineFeed :: 0 :: post.tail) c s count
  obtain ⟨u, val, generated, only, refused, taken⟩ :=
    generateOp_shift (t := { t with op := op.opcode }) c s count
      ((operandText c s count ++ lineFeed :: 0 :: post.tail).dropWhile isspace) (0 :: post.tail)
      (stale t.pass t.lineNum) rfl
  have here : runPass stale t
      [⟨.opcode op.opcode, word, rest⟩,
        ⟨.generate count.operands, operandText c s count ++ [lineFeed], post⟩] =
      (writeInstructionValue u (resWord (op.res count) (registerField c) (registerField s) val)).map
        newInstLine := by
    have buffer : operandText c s count ++ [lineFeed] ++ 0 :: post.tail =
        operandText c s count ++ lineFeed :: 0 :: post.tail := by simp
    have read : act stale { t with op := op.opcode }
        ⟨.generate count.operands, operandText c s count ++ [lineFeed], post⟩ =
          generateInstruction stale { t with op := op.opcode } count.operands
            (operandText c s count ++ lineFeed :: 0 :: post.tail) := by
      rw [← buffer]
      rfl
    have first : runPass stale t
        [⟨.opcode op.opcode, word, rest⟩,
          ⟨.generate count.operands, operandText c s count ++ [lineFeed], post⟩] =
        runPass stale { t with op := op.opcode }
          [⟨.generate count.operands, operandText c s count ++ [lineFeed], post⟩] := rfl
    rw [first, runPass_last, read, ← generated, generateInstruction, if_neg (not_not_intro format),
      if_neg other, if_neg started]
    simp only [second, third, one, two]
    cases count <;> rfl
  have location : u.codeLoc = t.codeLoc := only.codeLoc
  obtain ⟨u', wrote, written⟩ := writeInstructionValue_room
    (v := resWord (op.res count) (registerField c) (registerField s) val) (location ▸ room)
  have kept := written.errors
  have objout := written.objout
  refine ⟨newInstLine u', by rw [here, wrote]; rfl, ?_, ?_, ?_⟩
  · intro rejected
    have errors : u.numErrors = t.numErrors + 1 := refused rejected
    have counted : (newInstLine u').numErrors = u'.numErrors := rfl
    omega
  · intro accepted
    obtain ⟨rfl, -⟩ := taken accepted
    exact kept
  · intro accepted
    obtain ⟨rfl, rfl⟩ := taken accepted
    exact objout

end generate

end LC3Tools.Lcc
