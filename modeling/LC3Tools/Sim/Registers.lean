import LC3Tools.Sim.InstrParser

/-! The data of the two simulators: the operation codes both decode, the condition
flags, and the register file of `lc3sim.h`. -/
namespace LC3Tools

inductive Opcode where
  | BR | ADD | LD | ST | JSR | AND | LDR | STR | RTI | NOT | LDI | STI | JMP | RES | LEA | TRAP
  deriving DecidableEq, Repr

/-- The codes are the same four bits in `instr_maker.h` and in `vm_opcode`. -/
def Opcode.ofCode : Nat → Opcode
  | 0 => .BR | 1 => .ADD | 2 => .LD | 3 => .ST | 4 => .JSR | 5 => .AND | 6 => .LDR | 7 => .STR
  | 8 => .RTI | 9 => .NOT | 10 => .LDI | 11 => .STI | 12 => .JMP | 13 => .RES | 14 => .LEA
  | _ => .TRAP

/-- `EFlags` of the C++ simulator, `vm_flag` of the C one. -/
inductive Flag where
  | positive | zero | negative
  deriving DecidableEq, Repr

def Flag.bits : Flag → Nat
  | .positive => 0b001
  | .zero => 0b010
  | .negative => 0b100

/-- `SignFlag`: the sign bit is the top bit of the register type. -/
def signFlag {w : Nat} (value : BitVec w) : Flag :=
  if value = 0 then .zero else if value.msb then .negative else .positive

/-- A register number as the decoders produce it, used as an index. -/
def regIndex {n : Nat} (num : BitVec n) : Fin 8 := Fin.ofNat 8 num.toNat

/-- `m_Reg`: R0 to R7, the program counter, and the number of the register that
carries the condition code. The constructor sets that number to 0 and only
three-bit register numbers are ever stored in it, so it always indexes R0 to R7. -/
structure Registers (w : Nat) where
  reg : Fin 8 → BitVec w
  pc : BitVec w
  numCC : Fin 8

def Registers.initial (w : Nat) : Registers w := ⟨fun _ => 0, 0, 0⟩

def Registers.set {w : Nat} (r : Registers w) (n : Fin 8) (v : BitVec w) : Registers w :=
  { r with reg := fun i => if i = n then v else r.reg i }

section
variable {w : Nat} (r : Registers w) (n : Fin 8) (v : BitVec w)

@[simp] theorem set_reg_same : (r.set n v).reg n = v := by simp [Registers.set]
@[simp] theorem set_pc : (r.set n v).pc = r.pc := rfl
@[simp] theorem set_numCC : (r.set n v).numCC = r.numCC := rfl

theorem set_reg (i : Fin 8) : (r.set n v).reg i = if i = n then v else r.reg i := rfl

theorem set_reg_other {i : Fin 8} (other : i ≠ n) : (r.set n v).reg i = r.reg i := by
  rw [set_reg, if_neg other]

end

end LC3Tools
