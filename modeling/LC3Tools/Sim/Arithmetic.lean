import LC3Tools.Sim.Compose

/-! The arithmetic of the host. RES divides and shifts registers in the promoted type, and no
guard stands before the operation. The product of MUL, which is signed too and may overflow the
registers of 32 and 64 bits, is none of the operations here: it wraps around in the model. -/
namespace LC3Tools.Arithmetic
open InstrParser Sim Compose

/-- An operation on the promoted type that C++ does not define for all operands. -/
inductive Operation (n : Nat) where
  | division (dividend divisor : BitVec n)
  | shift (count : Nat)
  deriving DecidableEq

def Operation.Undefined {n : Nat} : Operation n → Prop
  | division dividend divisor => divisor = 0 ∨ (dividend = BitVec.intMin n ∧ divisor = -1)
  | shift count => n ≤ count

section
variable {w : Nat}

/-- DIV and MOD both divide. -/
def operation (op : ResOpcode) (a b : BitVec w) (imm : Nat) :
    Option (Operation (promotedWidth w)) :=
  match op with
  | .SLL | .SRA => some (.shift b.toNat)
  | .DIV | .MOD =>
    some (.division (a.signExtend (promotedWidth w)) (b.signExtend (promotedWidth w)))
  | .MUL => none
  | .SLLI | .SRAI => some (.shift imm)

/-- What a guest must not put into the registers and the amount of RES. -/
def Harmful (op : ResOpcode) (a b : BitVec w) (imm : Nat) : Prop :=
  match op with
  | .SLL | .SRA => max 32 w ≤ b.toNat
  | .DIV | .MOD => b.toInt = 0 ∨ (32 ≤ w ∧ a.toInt = -2 ^ (w - 1) ∧ b.toInt = -1)
  | .MUL => False
  | .SLLI | .SRAI => max 32 w ≤ imm

theorem promotedWidth_eq (w : Nat) : promotedWidth w = max 32 w := by
  unfold promotedWidth
  split <;> omega

theorem apply_undefined (op : ResOpcode) (a b : BitVec w) (imm : Nat) :
    op.apply a b imm = none ↔ ∃ x, operation op a b imm = some x ∧ x.Undefined := by
  cases op with
  | SLL | SRA | SLLI | SRAI =>
    simp [ResOpcode.apply, shiftLeft, shiftRight, operation, Operation.Undefined]
  | DIV | MOD =>
    simp only [ResOpcode.apply, divide, remainder, operation, Operation.Undefined,
      Option.some.injEq, exists_eq_left', ite_eq_left_iff, reduceCtorEq, imp_false, not_not]
  | MUL => simp [ResOpcode.apply, operation]

/-- The promoted divisor is zero with the register, and the lowest number of the promoted type
is a register only where nothing was promoted. -/
theorem division_undefined (a b : BitVec w) :
    (b.signExtend (promotedWidth w) = 0 ∨
      (a.signExtend (promotedWidth w) = BitVec.intMin (promotedWidth w) ∧
        b.signExtend (promotedWidth w) = -1)) ↔
    b.toInt = 0 ∨ (32 ≤ w ∧ a.toInt = -2 ^ (w - 1) ∧ b.toInt = -1) := by
  have wide : w ≤ promotedWidth w := by
    rw [promotedWidth_eq]
    omega
  have large : 32 ≤ promotedWidth w := by
    rw [promotedWidth_eq]
    omega
  have extended (x : BitVec w) : (x.signExtend (promotedWidth w)).toInt = x.toInt :=
    BitVec.toInt_signExtend_of_le wide
  have zero : (0 : BitVec (promotedWidth w)).toInt = 0 := BitVec.toInt_zero
  have one : (-1 : BitVec (promotedWidth w)).toInt = -1 := by
    have positive : 0 < promotedWidth w := by omega
    change (-1#(promotedWidth w)).toInt = -1
    rw [BitVec.neg_one_eq_allOnes, BitVec.toInt_allOnes, if_pos positive]
  have lowest : (BitVec.intMin (promotedWidth w)).toInt = -2 ^ (promotedWidth w - 1) :=
    BitVec.toInt_intMin_of_pos (by omega)
  rw [← BitVec.toInt_inj, ← BitVec.toInt_inj, ← BitVec.toInt_inj, extended, extended, zero, one,
    lowest]
  by_cases promoted : 32 ≤ w
  · have same : promotedWidth w = w := by
      rw [promotedWidth_eq]
      omega
    simp only [same, promoted, true_and]
  · have same : promotedWidth w = 32 := by
      rw [promotedWidth_eq]
      omega
    have least := BitVec.le_toInt a
    have powers (j : Nat) : (2 : Int) ^ j = ((2 ^ j : Nat) : Int) := by simp
    have smaller : 2 ^ (w - 1) ≤ 2 ^ 30 := Nat.pow_le_pow_right (by decide) (by omega)
    rw [powers] at least
    have above : a.toInt ≠ -2 ^ (promotedWidth w - 1) := by
      rw [same]
      omega
    simp only [above, promoted, false_and]

theorem harmful_iff (op : ResOpcode) (a b : BitVec w) (imm : Nat) :
    Harmful op a b imm ↔ ∃ x, operation op a b imm = some x ∧ x.Undefined := by
  cases op with
  | SLL | SRA | SLLI | SRAI => simp [Harmful, operation, Operation.Undefined, promotedWidth_eq]
  | DIV | MOD =>
    simp only [Harmful, operation, Option.some.injEq, exists_eq_left', Operation.Undefined,
      division_undefined]
  | MUL => simp [Harmful, operation]

end

section
variable {H : Type} {w : Nat} [Host H w]

/-- The operation that a step performs. -/
def performed (ib : Nat) (instr : BitVec w) (s : State H w) :
    Option (Operation (promotedWidth w)) :=
  let i := instr.setWidth 64
  match Opcode.ofCode (operCode ib i).toNat with
  | .RES => (ResOpcode.ofParam (paramAfterNum2 ib i).toNat).bind fun op =>
      operation op (s.regs.reg (regIndex (regNum2 ib i))) (s.regs.reg (regIndex (regNum3 i)))
        (uintAfterParam ib i).toNat
  | _ => none

/-- No undefined operation. -/
def Defined (ib : Nat) (instr : BitVec w) (s : State H w) : Prop :=
  ∀ x, performed ib instr s = some x → ¬ x.Undefined

def Harmless (ib : Nat) (instr : BitVec w) (s : State H w) : Prop :=
  let i := instr.setWidth 64
  Opcode.ofCode (operCode ib i).toNat = .RES →
    ∀ op, ResOpcode.ofParam (paramAfterNum2 ib i).toNat = some op →
      ¬ Harmful op (s.regs.reg (regIndex (regNum2 ib i))) (s.regs.reg (regIndex (regNum3 i)))
        (uintAfterParam ib i).toNat

omit [Host H w] in
theorem defined_iff (ib : Nat) (instr : BitVec w) (s : State H w) :
    Defined ib instr s ↔ Harmless ib instr s := by
  cases code : Opcode.ofCode (operCode ib (instr.setWidth 64)).toNat with
  | RES =>
    cases res : ResOpcode.ofParam (paramAfterNum2 ib (instr.setWidth 64)).toNat with
    | none => simp [Defined, Harmless, performed, code, res]
    | some op =>
      simp only [Defined, Harmless, performed, code, res, Option.bind_some, Option.some.injEq,
        true_imp_iff, forall_eq', harmful_iff, not_exists, not_and]
  | _ => simp [Defined, Harmless, performed, code]

theorem executed_iff (ib : Nat) (instr : BitVec w) (s : State H w) :
    (executeOneInstruction ib instr s).isSome ↔ Harmless ib instr s := by
  cases code : Opcode.ofCode (operCode ib (instr.setWidth 64)).toNat with
  | RES =>
    cases res : ResOpcode.ofParam (paramAfterNum2 ib (instr.setWidth 64)).toNat with
    | none => simp [executeOneInstruction, Harmless, code, res]
    | some op =>
      simp only [executeOneInstruction, Harmless, code, res, Option.isSome_map, true_imp_iff,
        Option.some.injEq, forall_eq', harmful_iff, ← apply_undefined]
      rw [Option.isSome_iff_ne_none]
  | BR =>
    simp only [executeOneInstruction, Harmless, code]
    split
    · simp
    · split <;> simp
  | JSR | TRAP =>
    simp only [executeOneInstruction, Harmless, code]
    split <;> simp
  | LDI | STI =>
    simp only [executeOneInstruction, Harmless, code]
    split <;> simp
  | _ => simp [executeOneInstruction, Harmless, code]

/-- The instruction that the next iteration executes, and the state it is executed in. -/
def fetched (p : Processor H w) : Option (BitVec w × State H w) :=
  let (result, instruction, h) := memoryRead p.state.host 0 p.state.regs.pc
  if result = .success then
    some (instruction, (p.state.setHost h).setPC (p.state.regs.pc + 1))
  else none

/-- The processor after some iterations none of which left the loop. -/
def reached (ib : Nat) (config : ProcessorConfig w) : Nat → Processor H w → Option (Processor H w)
  | 0, p => some p
  | k + 1, p => (iteration ib config p).bind fun (e, p') =>
      if Leaves e then none else reached ib config k p'

/-- Something holds of every instruction executed in the first iterations of a run. -/
def Along (ib : Nat) (config : ProcessorConfig w) (P : BitVec w → State H w → Prop) (n : Nat)
    (p : Processor H w) : Prop :=
  ∀ k < n, ∀ q, reached ib config k p = some q → ∀ instr s, fetched q = some (instr, s) → P instr s

theorem iteration_isSome (ib : Nat) (config : ProcessorConfig w) (p : Processor H w) :
    (iteration ib config p).isSome ↔ ∀ instr s, fetched p = some (instr, s) →
      Harmless ib instr s := by
  by_cases read : (memoryRead p.state.host 0 p.state.regs.pc).1 = .success
  · simp only [iteration, fetched, read, ne_eq, not_true_eq_false, if_false, if_true,
      Option.isSome_map, executed_iff, Option.some.injEq, Prod.mk.injEq, and_imp]
    constructor
    · rintro harmless instr s rfl rfl
      exact harmless
    · intro every
      exact every _ _ rfl rfl
  · simp only [iteration, fetched, read, ne_eq, not_false_eq_true, if_true, if_false,
      Option.isSome_some, reduceCtorEq, false_imp_iff, implies_true]

theorem along_succ {ib : Nat} {config : ProcessorConfig w} {P : BitVec w → State H w → Prop}
    {n : Nat} {p : Processor H w} : Along ib config P (n + 1) p ↔
      (∀ instr s, fetched p = some (instr, s) → P instr s) ∧
        ∀ e p', iteration ib config p = some (e, p') → ¬ Leaves e → Along ib config P n p' := by
  constructor
  · intro along
    refine ⟨along 0 (Nat.succ_pos n) p rfl, ?_⟩
    intro e p' stepped quiet k small q reach
    apply along (k + 1) (Nat.succ_lt_succ small) q
    simp only [reached, stepped, Option.bind_some, if_neg quiet, reach]
  · rintro ⟨first, rest⟩ k small q reach
    cases k with
    | zero =>
      cases Option.some.inj reach
      exact first
    | succ k =>
      obtain ⟨⟨e, p'⟩, stepped, reach'⟩ := Option.bind_eq_some_iff.mp reach
      by_cases leaves : Leaves e
      · simp only [if_pos leaves, reduceCtorEq] at reach'
      · simp only [if_neg leaves] at reach'
        exact rest e p' stepped leaves k (Nat.lt_of_succ_lt_succ small) q reach'

theorem runLoop_isSome (ib : Nat) (config : ProcessorConfig w) (n count : Nat) (e : Exception)
    (p : Processor H w) :
    (runLoop ib config n count e p).isSome ↔ Along ib config (Harmless ib) n p := by
  induction n generalizing count e p with
  | zero => simp [runLoop, Along]
  | succ n ih =>
    rw [along_succ, ← iteration_isSome ib config, runLoop_succ]
    cases stepped : iteration ib config p with
    | none => simp
    | some r =>
      obtain ⟨e₁, p₁⟩ := r
      simp only [Option.bind_some, Option.isSome_some, true_and, Option.some.injEq, Prod.mk.injEq,
        and_imp]
      by_cases leaves : Leaves e₁
      · simp [leaves]
      · simp [leaves, ih]

end

/-- Of every run of any length from any processor, in every width: no step performs an undefined
division or shift just when no step is given harmful operands, and then, and only then, does
no division or shift end the run of the model. -/
theorem arithmetic_defined_iff {H : Type} {w : Nat} [Host H w] (ib : Nat)
    (config : ProcessorConfig w) (p : Processor H w) (n : Nat) :
    (Along ib config (Defined ib) n p ↔ Along ib config (Harmless ib) n p) ∧
      ((p.run ib config n).isSome ↔ Along ib config (Harmless ib) n p) := by
  constructor
  · have same : (Defined ib : BitVec w → State H w → Prop) = Harmless ib := by
      funext instr s
      exact propext (defined_iff ib instr s)
    rw [same]
  · unfold Processor.run
    rw [Option.isSome_map]
    exact runLoop_isSome ib config n 1 .success p

/-- `DIV R0, R0, R1` at x3000 and every register zero. -/
def dividing : Processor (SimpleHost 65535 16) 16 :=
  ⟨⟨⟨fun _ => 0, 0x3000, 0⟩, ⟨fun a => if a = 0x3000 then 0xd011 else 0, ⟨[], [], []⟩⟩⟩, 0⟩

theorem divides_by_zero : ¬ Along 16 mainConfig (Defined 16) 1 dividing := by
  intro along
  have divided : performed 16 (0xd011 : BitVec 16) (dividing.state.setPC 0x3001) =
      some (.division 0 0) := by
    decide +kernel
  exact along 0 (by decide) dividing rfl 0xd011 (dividing.state.setPC 0x3001) rfl _ divided
    (.inl rfl)

end LC3Tools.Arithmetic
