import LC3Tools.Sim.Arithmetic
import LC3Tools.Sim.Decode
import Mathlib.Data.Nat.Bitwise
import Mathlib.Tactic.IntervalCases

/-! `execute_instruction` of `lc3sim.c` on the DTU extensions of `lc3.def`, beside the step of
the C++ simulator on the same word. All registers are C integers there. -/
namespace LC3Tools.Lc3Def
open InstrParser Sim Arithmetic

/-- The `DEF_INST`s by name, with the DTU extensions by their function field. -/
inductive Inst where
  | ADD | ADDI | AND | ANDI | BR | JMP | JSR | JSRR | LD | LDI | LDR | LEA | NOT | RTI | ST | STI
  | STR | TRAP
  | DTU (op : ResOpcode)
  deriving DecidableEq, Repr

/-- Mask and match of each `DEF_INST`, in the order in which they are tried. -/
def table : List (Inst × BitVec 32 × BitVec 32) :=
  [(.ADD, 0xF038, 0x1000), (.ADDI, 0xF020, 0x1020), (.AND, 0xF038, 0x5000),
   (.ANDI, 0xF020, 0x5020), (.BR, 0xF000, 0x0000), (.JMP, 0xFE3F, 0xC000), (.JSR, 0xF800, 0x4800),
   (.JSRR, 0xFE3F, 0x4000), (.LD, 0xF000, 0x2000), (.LDI, 0xF000, 0xA000), (.LDR, 0xF000, 0x6000),
   (.LEA, 0xF000, 0xE000), (.NOT, 0xF03F, 0x903F), (.RTI, 0xF000, 0x8000), (.ST, 0xF000, 0x3000),
   (.STI, 0xF000, 0xB000), (.STR, 0xF000, 0x7000), (.TRAP, 0xFF00, 0xF000),
   (.DTU .SLL, 0xD038, 0xD000), (.DTU .SRA, 0xD038, 0xD008), (.DTU .DIV, 0xD038, 0xD010),
   (.DTU .MOD, 0xD038, 0xD018), (.DTU .MUL, 0xD038, 0xD020), (.DTU .SLLI, 0xD038, 0xD028),
   (.DTU .SRAI, 0xD038, 0xD030)]

def decode (ir : BitVec 32) : Option Inst :=
  (table.find? fun (_, mask, value) => ir &&& mask = value).map (·.1)

/-- `lc3_register` and `lc3_memory`. -/
structure Machine where
  reg : Fin 8 → BitVec 32
  pc : BitVec 32
  ir : BitVec 32
  psr : BitVec 32
  memory : BitVec 16 → BitVec 32

namespace Machine
variable (m : Machine)

/-- `F_DR`, `F_SR1` and `F_SR2` are this at their bits. -/
def field (n : Nat) : Fin 8 := regIndex ((m.ir >>> n) &&& 0x7)

/-- `SET_CC` after the destination has its value. -/
def setCC (value : BitVec 32) : Machine :=
  let psr := m.psr &&& ~~~0x0e00
  { m with psr :=
      if value &&& 0x8000 ≠ 0 then psr ||| 0x0800
      else if value = 0 then psr ||| 0x0400
      else psr ||| 0x0200 }

def setReg (n : Fin 8) (value : BitVec 32) : Machine :=
  { m with reg := fun i => if i = n then value else m.reg i }

end Machine

/-- The conversion to `int16_t` and the promotion back. -/
def int16 (x : BitVec 32) : BitVec 32 := (x.setWidth 16).signExtend 32

/-- The right-hand sides of the DTU instructions in `int`, none where C leaves them undefined. -/
def dtuValue (op : ResOpcode) (a b immu3 : BitVec 32) : Option (BitVec 32) :=
  match op with
  | .SLL => if b.toNat < 32 then some (a <<< b.toNat) else none
  | .SRA => if b.toNat < 32 then some ((int16 a).sshiftRight b.toNat) else none
  | .DIV => if int16 b = 0 then none else some ((int16 a).sdiv (int16 b))
  | .MOD => if int16 b = 0 then none else some ((int16 a).srem (int16 b))
  | .MUL => some (int16 a * int16 b)
  | .SLLI => some (a <<< immu3.toNat)
  | .SRAI => some ((int16 a).sshiftRight immu3.toNat)

/-- One step on a fetched word; the bodies of the other instructions are left out. -/
def executeInstruction (word : BitVec 32) (m : Machine) : Option Machine :=
  let m := { m with ir := word, pc := (m.pc + 1) &&& 0xffff }
  match decode m.ir with
  | some (.DTU op) =>
    (dtuValue op (m.reg (m.field 6)) (m.reg (m.field 0)) (m.ir &&& 0x7)).map fun v =>
      (m.setReg (m.field 9) (v &&& 0xffff)).setCC (v &&& 0xffff)
  | _ => none

section
variable {H : Type} [Host H 16]

/-- The two machines show the same registers and the same condition code. -/
structure Agree (m : Machine) (s : State H 16) : Prop where
  reg : ∀ n, m.reg n = (s.regs.reg n).setWidth 32
  pc : m.pc = s.regs.pc.setWidth 32
  flag : m.psr &&& 0x0e00#32 = BitVec.ofNat 32 (s.flag.bits <<< 9)

end

/-- A word with the code of RES and one of the seven functions. -/
def IsDtu (i : BitVec 16) (op : ResOpcode) : Prop :=
  i >>> 12 = 13#16 ∧ ResOpcode.ofParam ((i >>> 3) &&& 7).toNat = some op

theorem others_tested : ∀ x ∈ table.take 18, x.2.1 &&& 0xf000#32 = 0xf000#32 ∧
    x.2.2 &&& 0xf000#32 ≠ 0xd000#32 := by
  decide

theorem function_bits (i : BitVec 16) : i &&& 0x38#16 = ((i >>> 3) &&& 7#16) <<< 3 := by
  ext j inside
  interval_cases j <;> simp

theorem code_bits {i : BitVec 16} (code : i >>> 12 = 13#16) : i &&& 0xf000#16 = 0xd000#16 := by
  have top : i &&& 0xf000#16 = (i >>> 12) <<< 12 := by
    ext j inside
    interval_cases j <;> simp
  rw [top, code]
  rfl

theorem decode_dtu {i : BitVec 16} {op : ResOpcode} (dtu : IsDtu i op) :
    decode (i.setWidth 32) = some (.DTU op) := by
  obtain ⟨code, param⟩ := dtu
  have top : i.setWidth 32 &&& 0xf000#32 = 0xd000#32 := by
    have narrow := congrArg (BitVec.setWidth 32) (code_bits code)
    rwa [BitVec.setWidth_and] at narrow
  have others : (table.take 18).find? (fun (_, mask, value) => i.setWidth 32 &&& mask = value) =
      none := by
    rw [List.find?_eq_none]
    intro x listed
    obtain ⟨whole, other⟩ := others_tested x listed
    have apart : i.setWidth 32 &&& x.2.1 ≠ x.2.2 := by
      intro same
      apply other
      rw [← same, BitVec.and_assoc, whole, top]
    simpa using apart
  have tested : i.setWidth 32 &&& (0xd038 : BitVec 32) =
      0xd000#32 ||| (((i >>> 3) &&& 7#16) <<< 3).setWidth 32 := by
    have parts : (0xd038 : BitVec 32) = (0xf000#32 &&& 0xd000#32) ||| 0x38#32 := rfl
    have low := congrArg (BitVec.setWidth 32) (function_bits i)
    rw [BitVec.setWidth_and] at low
    rw [parts, BitVec.and_or_distrib_left, ← BitVec.and_assoc, top, ← low]
    rfl
  have split : table = table.take 18 ++ table.drop 18 := (List.take_append_drop 18 table).symm
  unfold decode
  rw [split, List.find?_append, others, Option.none_or]
  have seven : ((i >>> 3) &&& 7#16).toNat < 8 := Nat.lt_of_le_of_lt (Nat.and_le_right) (by decide)
  change (Option.map _ ((table.drop 18).find? _)) = _
  generalize (i >>> 3) &&& 7#16 = function at param seven tested
  obtain ⟨n, number⟩ : ∃ n, n = function.toNat := ⟨_, rfl⟩
  have literal : function = BitVec.ofNat 16 n := by
    rw [number, BitVec.ofNat_toNat, BitVec.setWidth_eq]
  rw [← number] at param seven
  rw [literal] at tested
  -- the eighth function is the value that RES leaves undefined
  interval_cases n <;> cases param <;>
    simp only [table, List.drop_succ_cons, List.drop_zero, List.find?_cons, tested] <;> rfl

/-- The operands for which C and C++ define the result. -/
def Given (op : ResOpcode) (a b : BitVec 16) : Prop :=
  match op with
  | .SLL | .SRA => b.toNat < 16
  | .DIV | .MOD => b ≠ 0 ∧ ¬ (a = 0x8000 ∧ b = -1)
  | .MUL | .SLLI | .SRAI => True

/-- The shift brings in bits that the sign decides. -/
def ShiftsSign (op : ResOpcode) (a b immu3 : BitVec 16) : Prop :=
  match op with
  | .SRA => a.msb ∧ b ≠ 0
  | .SRAI => a.msb ∧ immu3 ≠ 0
  | _ => False

theorem low_word (v : BitVec 32) : v &&& 0xffff = (v.setWidth 16).setWidth 32 := by
  apply BitVec.eq_of_toNat_eq
  have mask : (0xffff : BitVec 32).toNat = 2 ^ 16 - 1 := rfl
  rw [BitVec.toNat_and, mask, Nat.and_two_pow_sub_one_eq_mod, BitVec.toNat_setWidth,
    BitVec.toNat_setWidth, Nat.mod_eq_of_lt (b := 2 ^ 32)]
  exact Nat.lt_of_lt_of_le (Nat.mod_lt _ (by decide)) (by decide)

theorem int16_widen (a : BitVec 16) : int16 (a.setWidth 32) = a.signExtend 32 := by
  unfold int16
  rw [BitVec.setWidth_setWidth_of_le _ (by decide), BitVec.setWidth_eq]

theorem shift_agrees (a count : BitVec 16) :
    (((a.signExtend 32).sshiftRight count.toNat).setWidth 16 =
      ((a.setWidth (promotedWidth 16)) >>> count.toNat).setWidth 16) ↔
    ¬ (a.msb ∧ count ≠ 0) := by
  have signed : ((a.signExtend 32).sshiftRight count.toNat).setWidth 16 =
      a.sshiftRight count.toNat := by
    rw [BitVec.sshiftRight_eq, BitVec.sshiftRight_eq, BitVec.toInt_signExtend_of_le (by decide)]
    apply BitVec.eq_of_toNat_eq
    rw [BitVec.toNat_setWidth, BitVec.toNat_ofInt, BitVec.toNat_ofInt]
    omega
  have plain : ((a.setWidth (promotedWidth 16)) >>> count.toNat).setWidth 16 =
      a >>> count.toNat := by
    rw [← BitVec.setWidth_ushiftRight (by decide), BitVec.setWidth_setWidth_of_le _ (by decide),
      BitVec.setWidth_eq]
  rw [signed, plain]
  constructor
  · rintro same ⟨negative, moved⟩
    have top := congrArg BitVec.msb same
    have positive : 0 < count.toNat := by
      rcases Nat.eq_zero_or_pos count.toNat with zero | positive
      · exact absurd (BitVec.eq_of_toNat_eq zero) moved
      · exact positive
    simp [BitVec.msb_sshiftRight, BitVec.msb_ushiftRight, negative, positive] at top
  · intro either
    cases negative : a.msb with
    | false => exact BitVec.sshiftRight_eq_of_msb_false negative
    | true =>
      have still : count = 0 := by
        by_contra moved
        exact either ⟨negative, moved⟩
      rw [still]
      simp

/-- Both compute the same word unless a shift to the right brings in the sign. -/
theorem dtuValue_apply {op : ResOpcode} {a b immu3 : BitVec 16} (small : immu3.toNat < 8)
    (given : Given op a b) :
    ∃ v u, dtuValue op (a.setWidth 32) (b.setWidth 32) (immu3.setWidth 32) = some v ∧
      op.apply a b immu3.toNat = some u ∧ (v.setWidth 16 = u ↔ ¬ ShiftsSign op a b immu3) := by
  have wide (x : BitVec 16) : (x.setWidth 32).toNat = x.toNat := by
    rw [BitVec.toNat_setWidth, Nat.mod_eq_of_lt (Nat.lt_of_lt_of_le x.isLt (by decide))]
  cases op with
  | SLL =>
    have count : b.toNat < 32 := Nat.lt_of_lt_of_le given (by decide)
    refine ⟨_, _, if_pos (by rw [wide]; exact count), if_pos count, ?_⟩
    simp only [ShiftsSign, wide, not_false_eq_true, iff_true]
    rfl
  | SLLI =>
    have count : immu3.toNat < 32 := Nat.lt_trans small (by decide)
    refine ⟨_, _, rfl, if_pos count, ?_⟩
    simp only [ShiftsSign, wide, not_false_eq_true, iff_true]
    rfl
  | SRA =>
    have count : b.toNat < 32 := Nat.lt_of_lt_of_le given (by decide)
    refine ⟨_, _, if_pos (by rw [wide]; exact count), if_pos count, ?_⟩
    rw [int16_widen, wide]
    exact shift_agrees a b
  | SRAI =>
    have count : immu3.toNat < 32 := Nat.lt_trans small (by decide)
    refine ⟨_, _, rfl, if_pos count, ?_⟩
    rw [int16_widen, wide]
    exact shift_agrees a immu3
  | DIV | MOD =>
    have nonzero : ¬ (b.toInt = 0 ∨ 32 ≤ 16 ∧ a.toInt = -2 ^ (16 - 1) ∧ b.toInt = -1) := by
      rintro (zero | ⟨wide, -⟩)
      · exact given.1 (BitVec.eq_of_toInt_eq zero)
      · omega
    have defined := mt (division_undefined a b).mp nonzero
    have divisor : int16 (b.setWidth 32) ≠ 0 := by
      rw [int16_widen]
      exact fun zero => defined (.inl zero)
    refine ⟨_, _, if_neg divisor, if_neg defined, ?_⟩
    simp only [int16_widen, ShiftsSign, not_false_eq_true, iff_true]
    rfl
  | MUL =>
    refine ⟨_, _, rfl, rfl, ?_⟩
    have low (x : BitVec 16) : (x.signExtend 32).setWidth 16 = x := by
      ext j inside
      have wider : j < 32 := Nat.lt_trans inside (by decide)
      simp [BitVec.getElem_signExtend, inside, wider]
    rw [int16_widen, int16_widen, BitVec.setWidth_mul _ _ (by decide), low, low]
    simp [ShiftsSign]

section
variable {H : Type} [Host H 16]

theorem setCC_flag (v : BitVec 16) (m : Machine) :
    (m.setCC (v.setWidth 32)).psr &&& 0x0e00#32 = BitVec.ofNat 32 ((signFlag v).bits <<< 9) := by
  have cleared (k : BitVec 32) : (m.psr &&& ~~~0x0e00 ||| k) &&& 0x0e00#32 = k &&& 0x0e00#32 := by
    rw [BitVec.and_or_distrib_right, BitVec.and_assoc,
      show ~~~(0x0e00 : BitVec 32) &&& 0x0e00#32 = 0#32 from rfl]
    simp
  have wide (x : BitVec 16) : (x.setWidth 32).toNat = x.toNat := by
    rw [BitVec.toNat_setWidth, Nat.mod_eq_of_lt (Nat.lt_of_lt_of_le x.isLt (by decide))]
  have zero (x : BitVec 16) : x.setWidth 32 = 0 ↔ x = 0 := by
    rw [← BitVec.toNat_inj, ← BitVec.toNat_inj, wide]
    rfl
  have negative : v.setWidth 32 &&& 0x8000 ≠ 0 ↔ v.msb = true := by
    have narrow : v.setWidth 32 &&& 0x8000 = (v &&& 0x8000#16).setWidth 32 := by
      rw [BitVec.setWidth_and]
      rfl
    have bit : (v &&& 0x8000#16).toNat = (v.toNat.testBit 15).toNat * 2 ^ 15 :=
      Nat.and_two_pow v.toNat 15
    have top : v.toNat.testBit 15 = v.msb := rfl
    rw [narrow, ne_eq, zero, ← BitVec.toNat_inj, bit, top]
    cases v.msb <;> decide
  unfold Machine.setCC signFlag
  by_cases none : v = 0
  · have positive : ¬ (v.setWidth 32 &&& 0x8000 ≠ 0) := by
      rw [negative, none]
      decide
    simp only [if_neg positive, if_pos ((zero v).mpr none), if_pos none, cleared]
    rfl
  · by_cases sign : v.msb = true
    · simp only [if_pos (negative.mpr sign), if_neg none, if_pos sign, cleared]
      rfl
    · have positive := mt negative.mp sign
      simp only [if_neg positive, if_neg (mt (zero v).mp none), if_neg none, if_neg sign, cleared]
      rfl

theorem field_widen {m : Machine} {i : BitVec 16} (ir : m.ir = i.setWidth 32) (n : Nat) :
    m.field n = regIndex ((i >>> n) &&& 7) := by
  have seven : (0x7 : BitVec 32) = (7 : BitVec 16).setWidth 32 := rfl
  have low : (((i >>> n) &&& 7).setWidth 32).toNat = ((i >>> n) &&& 7).toNat := by
    rw [BitVec.toNat_setWidth, Nat.mod_eq_of_lt]
    exact Nat.lt_of_lt_of_le (BitVec.isLt _) (by decide)
  unfold Machine.field regIndex
  rw [ir, ← BitVec.setWidth_ushiftRight (by decide), seven, ← BitVec.setWidth_and, low]

/-- For every DTU word and every pair of machines that show the same state: if the operands
give a defined result, both steps are defined, change neither memory nor host, and show the
same state afterwards if and only if no shift to the right moves the bits of a negative number. -/
theorem dtu_agree_iff (i : BitVec 16) (op : ResOpcode) (dtu : IsDtu i op) (m : Machine)
    (s : State H 16) (agree : Agree m s)
    (given : Given op (s.regs.reg (regIndex ((i >>> 6) &&& 7))) (s.regs.reg (regIndex (i &&& 7)))) :
    ∃ m' s', executeInstruction (i.setWidth 32) m = some m' ∧
      executeOneInstruction 16 i (s.setPC (s.regs.pc + 1)) = some (.success, s') ∧
      m'.memory = m.memory ∧ s'.host = s.host ∧
      (Agree m' s' ↔ ¬ ShiftsSign op (s.regs.reg (regIndex ((i >>> 6) &&& 7)))
        (s.regs.reg (regIndex (i &&& 7))) (i &&& 7)) := by
  have opcode : Opcode.ofCode (operCode 16 (i.setWidth 64)).toNat = .RES := by
    rw [operCode_narrow, dtu.1]
    rfl
  have param : ResOpcode.ofParam (paramAfterNum2 16 (i.setWidth 64)).toNat = some op := by
    have field : (paramAfterNum2 16 (i.setWidth 64)).toNat = ((i >>> 3) &&& 7).toNat :=
      regField_narrow i 3
    rw [field]
    exact dtu.2
  have amount : (uintAfterParam 16 (i.setWidth 64)).toNat = (i &&& 7).toNat := regField_narrow i 0
  have small : (i &&& 7).toNat < 8 := Nat.lt_of_le_of_lt Nat.and_le_right (by decide)
  obtain ⟨v, u, left, right, same⟩ := dtuValue_apply small given
  have third : regIndex (i &&& 7) = regIndex ((i >>> 0) &&& 7) := by simp
  have immu3 : i.setWidth 32 &&& 0x7 = (i &&& 7).setWidth 32 := by
    rw [BitVec.setWidth_and]
    rfl
  have next : (m.pc + 1) &&& 0xffff = (s.regs.pc + 1).setWidth 32 := by
    rw [agree.pc, low_word, BitVec.setWidth_add _ _ (by decide),
      BitVec.setWidth_setWidth_of_le _ (by decide), BitVec.setWidth_eq]
    rfl
  let m₁ : Machine := { m with ir := i.setWidth 32, pc := (m.pc + 1) &&& 0xffff }
  let s₁ : State H 16 := s.setPC (s.regs.pc + 1)
  let dr := regIndex ((i >>> 9) &&& 7)
  have stepped : executeInstruction (i.setWidth 32) m =
      some ((m₁.setReg dr (v &&& 0xffff)).setCC (v &&& 0xffff)) := by
    have ran : dtuValue op (m₁.reg (m₁.field 6)) (m₁.reg (m₁.field 0))
      (m₁.ir &&& 0x7) = some v := by
      rw [field_widen rfl, field_widen rfl, ← third]
      change dtuValue op (m.reg _) (m.reg _) (i.setWidth 32 &&& 0x7) = some v
      rw [agree.reg, agree.reg, immu3, left]
    have listed : decode m₁.ir = some (.DTU op) := decode_dtu dtu
    have target : m₁.field 9 = dr := field_widen rfl 9
    change (match decode m₁.ir with
      | some (.DTU op) => _
      | _ => none) = _
    rw [listed]
    change Option.map _ (dtuValue op (m₁.reg (m₁.field 6)) (m₁.reg (m₁.field 0)) (m₁.ir &&& 0x7)) =
      _
    rw [ran, target]
    rfl
  have executed : executeOneInstruction 16 i s₁ = some (.success, (s₁.setReg dr u).setCC dr) := by
    simp only [executeOneInstruction, opcode, param, amount, regIndex_regNum1_narrow,
      regIndex_regNum2_narrow, regIndex_regNum3_narrow]
    exact congrArg (Option.map _) right
  refine ⟨_, _, stepped, executed, rfl, rfl, ?_⟩
  rw [← same, low_word]
  have frame (n : Fin 8) : m.reg n = (s.regs.reg n).setWidth 32 := agree.reg n
  constructor
  · intro shown
    have value : (m₁.setReg dr ((v.setWidth 16).setWidth 32)).reg dr =
        ((s₁.regs.set dr u).reg dr).setWidth 32 := shown.reg dr
    rw [set_reg_same] at value
    have stored : (m₁.setReg dr ((v.setWidth 16).setWidth 32)).reg dr =
        (v.setWidth 16).setWidth 32 := if_pos rfl
    rw [stored] at value
    have back (x : BitVec 16) : (x.setWidth 32).setWidth 16 = x := by
      rw [BitVec.setWidth_setWidth_of_le _ (by decide), BitVec.setWidth_eq]
    rw [← back (v.setWidth 16), value, back]
  · rintro rfl
    refine ⟨fun n => ?_, next, ?_⟩
    · change (if n = dr then _ else m.reg n) = ((s₁.regs.set dr (v.setWidth 16)).reg n).setWidth 32
      rw [set_reg]
      split
      · rfl
      · exact frame n
    · rw [setCC_flag]
      change _ = BitVec.ofNat 32 ((signFlag ((s₁.regs.set dr (v.setWidth 16)).reg dr)).bits <<< 9)
      rw [set_reg_same]

end

/-- R1 = -2, R2 = 1, and the words are taken as fetched. -/
def negativeState : State (SimpleHost 65535 16) 16 :=
  ⟨⟨fun i => if i = 1 then 0xfffe else if i = 2 then 1 else 0, 0x3000, 0⟩,
    ⟨fun _ => 0, ⟨[], [], []⟩⟩⟩

def negativeMachine : Machine :=
  ⟨fun i => if i = 1 then 0xfffe else if i = 2 then 1 else 0, 0x3000, 0, 0x0400, fun _ => 0⟩

theorem negative_agree : Agree negativeMachine negativeState :=
  ⟨by decide, rfl, by decide⟩

theorem dtu_agree_mul : ∃ m' s', executeInstruction 0xd062 negativeMachine = some m' ∧
    executeOneInstruction 16 0xd062 (negativeState.setPC 0x3001) = some (.success, s') ∧
    Agree m' s' := by
  obtain ⟨m', s', stepped, executed, -, -, same⟩ :=
    dtu_agree_iff 0xd062 .MUL ⟨by decide, by decide⟩ negativeMachine negativeState negative_agree
      trivial
  exact ⟨m', s', stepped, executed, same.mpr id⟩

theorem sra_disagrees :
    (executeInstruction 0xd04a negativeMachine).map (·.reg 0) = some 0xffff ∧
      (executeOneInstruction 16 0xd04a (negativeState.setPC 0x3001)).map
        (fun (_, s') => s'.regs.reg 0) = some 0x7fff := by
  decide +kernel

end LC3Tools.Lc3Def
