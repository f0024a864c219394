import LC3Tools.Sim.Registers

/-! `InstructionExecuter::ExecuteOneInstruction` of `lc3sim.cpp`, for any register
width `w` and instruction width `ib`. The three abstract classes the executer is
given pointers to are one interface. A read names the word its out pointer holds,
because a failing read of an arbitrary virtual memory may or may not store to it.
The result is none where a division or a shift of C++ is undefined; the product of two
signed registers wraps around, which C++ leaves open where it overflows. -/
namespace LC3Tools.Sim
open InstrParser

/-- `IVirtualMemory::Result`. -/
inductive Access where
  | success | errorAddressOutOfRange | errorAccess
  deriving DecidableEq, Repr

/-- `I_RTI_Operation::Result`. -/
inductive RtiResult where
  | success | stop
  deriving DecidableEq, Repr

/-- `Exception::Type`. -/
inductive Exception where
  | success | stop | rti | notImplemented | errorRead | errorWrite
  deriving DecidableEq, Repr

/-- `IVirtualMemory`, `IInputOutput` and `I_RTI_Operation`. -/
class Host (H : Type) (w : outParam Nat) where
  read : H → BitVec w → BitVec w → Access × BitVec w
  write : H → BitVec w → BitVec w → Access × H
  getChar : H → BitVec 8 × H
  putChar : H → BitVec 8 → H
  checkKeyboard : H → Bool × H
  operation : H → BitVec w → BitVec w → BitVec w → RtiResult × H

structure State (H : Type) (w : Nat) where
  regs : Registers w
  host : H

def addressKBSR (w : Nat) : BitVec w := BitVec.ofNat w 0xfe00
def addressKBDR (w : Nat) : BitVec w := BitVec.ofNat w 0xfe02
def addressDSR (w : Nat) : BitVec w := BitVec.ofNat w 0xfe04
def addressDDR (w : Nat) : BitVec w := BitVec.ofNat w 0xfe06

section
variable {H : Type} {w : Nat} [Host H w]

def statusBit (w : Nat) : BitVec w := 1#w <<< (w - 1)

/-- `Char` is a signed byte, so storing one to a register extends its sign. -/
def charValue (w : Nat) (c : BitVec 8) : BitVec w := c.signExtend w

def memoryRead (h : H) (out address : BitVec w) : Access × BitVec w × H :=
  if address = addressKBSR w then
    let (pressed, h') := Host.checkKeyboard h
    (.success, if pressed then statusBit w else 0, h')
  else if address = addressKBDR w then
    let (pressed, h') := Host.checkKeyboard h
    if pressed then
      let (c, h'') := Host.getChar h'
      (.success, charValue w c, h'')
    else (.success, 0, h')
  else if address = addressDSR w then (.success, statusBit w, h)
  else if address = addressDDR w then (.success, 0, h)
  else
    let (result, out') := Host.read h address out
    (result, out', h)

def memoryWrite (h : H) (value address : BitVec w) : Access × H :=
  if address = addressKBSR w ∨ address = addressKBDR w ∨ address = addressDSR w then (.success, h)
  else if address = addressDDR w then (.success, Host.putChar h (value.setWidth 8))
  else Host.write h value address

def State.setReg (s : State H w) (n : Fin 8) (v : BitVec w) : State H w :=
  { s with regs := s.regs.set n v }

def State.setPC (s : State H w) (v : BitVec w) : State H w :=
  { s with regs := { s.regs with pc := v } }

def State.setHost (s : State H w) (h : H) : State H w := { s with host := h }

/-- `SET_CC_REG_NUM1`. -/
def State.setCC (s : State H w) (n : Fin 8) : State H w :=
  { s with regs := { s.regs with numCC := n } }

/-- The flag BR tests: `SignFlag(REG(REG(rnReg_NumCC)))`. -/
def State.flag (s : State H w) : Flag := signFlag (s.regs.reg s.regs.numCC)

/-- `MEMORY_READ` with a register as its out parameter. -/
def State.readReg (s : State H w) (n : Fin 8) (address : BitVec w) : Access × State H w :=
  let (result, out, h) := memoryRead s.host (s.regs.reg n) address
  (result, (s.setReg n out).setHost h)

/-- The end of LD, LDR and LDI: an error returns before `SET_CC_REG_NUM1`. -/
def State.load (s : State H w) (n : Fin 8) (address : BitVec w) : Exception × State H w :=
  let (result, s') := s.readReg n address
  if result = .success then (.success, s'.setCC n) else (.errorRead, s')

/-- The end of ST, STR and STI. -/
def State.store (s : State H w) (n : Fin 8) (address : BitVec w) : Exception × State H w :=
  let (result, h) := memoryWrite s.host (s.regs.reg n) address
  (if result = .success then .success else .errorWrite, s.setHost h)

/-- The width of the type the usual promotions give a register: at least `int`. -/
def promotedWidth (w : Nat) : Nat := if w < 32 then 32 else w

/-- Signed division at the promoted width, none where C++ leaves it undefined. -/
def divide (a b : BitVec w) : Option (BitVec w) :=
  let x := a.signExtend (promotedWidth w)
  let y := b.signExtend (promotedWidth w)
  if y = 0 ∨ (x = BitVec.intMin (promotedWidth w) ∧ y = -1) then none
  else some ((x.sdiv y).setWidth w)

def remainder (a b : BitVec w) : Option (BitVec w) :=
  let x := a.signExtend (promotedWidth w)
  let y := b.signExtend (promotedWidth w)
  if y = 0 ∨ (x = BitVec.intMin (promotedWidth w) ∧ y = -1) then none
  else some ((x.srem y).setWidth w)

/-- A register is unsigned, so its promotion adds zeros and `>>` brings zeros in. -/
def shiftLeft (a : BitVec w) (count : Nat) : Option (BitVec w) :=
  if count < promotedWidth w then some ((a.setWidth (promotedWidth w) <<< count).setWidth w)
  else none

def shiftRight (a : BitVec w) (count : Nat) : Option (BitVec w) :=
  if count < promotedWidth w then some ((a.setWidth (promotedWidth w) >>> count).setWidth w)
  else none

/-- The inner switch of the RES case. -/
inductive ResOpcode where
  | SLL | SRA | DIV | MOD | MUL | SLLI | SRAI
  deriving DecidableEq, Repr

/-- The eighth parameter value has no case in the switch. -/
def ResOpcode.ofParam : Nat → Option ResOpcode
  | 0 => some .SLL | 1 => some .SRA | 2 => some .DIV | 3 => some .MOD | 4 => some .MUL
  | 5 => some .SLLI | 6 => some .SRAI
  | _ => none

def ResOpcode.apply (op : ResOpcode) (a b : BitVec w) (imm : Nat) : Option (BitVec w) :=
  match op with
  | .SLL => shiftLeft a b.toNat
  | .SRA => shiftRight a b.toNat
  | .DIV => divide a b
  | .MOD => remainder a b
  | .MUL => some (a * b)
  | .SLLI => shiftLeft a imm
  | .SRAI => shiftRight a imm

/-- The program counter already points behind the instruction. -/
def executeOneInstruction (ib : Nat) (instr : BitVec w) (s : State H w) :
    Option (Exception × State H w) :=
  let i := instr.setWidth 64
  let num1 := regIndex (regNum1 ib i)
  let num2 := regIndex (regNum2 ib i)
  let num3 := regIndex (regNum3 i)
  let pcOffset := s.regs.pc + (intAfterNum1 ib i).setWidth w
  let baseOffset := s.regs.reg num2 + (intAfterNum2 ib i).setWidth w
  -- the second operand of ADD and AND
  let operand := if intAfterNum2Flag ib i ≠ 0 then (intAfterNum2WithFlag ib i).setWidth w
    else s.regs.reg num3
  match Opcode.ofCode (operCode ib i).toNat with
  | .BR =>
    if instr = 0 then some (.stop, s)
    else if s.flag.bits &&& (regNum1 ib i).toNat ≠ 0 then some (.success, s.setPC pcOffset)
    else some (.success, s)
  | .ADD => some (.success, (s.setReg num1 (s.regs.reg num2 + operand)).setCC num1)
  | .LD => some (s.load num1 pcOffset)
  | .ST => some (s.store num1 pcOffset)
  | .JSR =>
    if intAfterOperFlag ib i ≠ 0 then
      some (.success, (s.setReg 7 s.regs.pc).setPC
        (s.regs.pc + (intAfterOperWithFlag ib i).setWidth w))
    else some (.success, (s.setReg 7 s.regs.pc).setPC (s.regs.reg num2))
  | .AND => some (.success, (s.setReg num1 (s.regs.reg num2 &&& operand)).setCC num1)
  | .LDR => some (s.load num1 baseOffset)
  | .STR => some (s.store num1 baseOffset)
  | .RTI =>
    let (result, h) := Host.operation s.host (s.regs.reg num1) (s.regs.reg num2)
      ((intAfterNum2 ib i).setWidth w)
    some (if result = .stop then .rti else .success, s.setHost h)
  | .NOT => some (.success, (s.setReg num1 (~~~ s.regs.reg num2)).setCC num1)
  | .LDI =>
    let (result, address, h) := memoryRead s.host 0 pcOffset
    if result ≠ .success then some (.errorRead, s.setHost h)
    else some ((s.setHost h).load num1 address)
  | .STI =>
    let (result, address, h) := memoryRead s.host 0 pcOffset
    if result ≠ .success then some (.errorRead, s.setHost h)
    else
      let (e, s') := (s.setHost h).store num1 address
      -- unlike ST and STR, this case ends with SET_CC_REG_NUM1
      some (e, if e = .success then s'.setCC num1 else s')
  | .JMP => some (.success, s.setPC (s.regs.reg num2))
  | .RES =>
    match ResOpcode.ofParam (paramAfterNum2 ib i).toNat with
    | none => some (.success, s.setCC num1)
    | some op =>
      (op.apply (s.regs.reg num2) (s.regs.reg num3) (uintAfterParam ib i).toNat).map fun v =>
        (.success, (s.setReg num1 v).setCC num1)
  | .LEA => some (.success, (s.setReg num1 pcOffset).setCC num1)
  | .TRAP =>
    let address := (trap ib i).setWidth w
    if address = 0x20 then
      let (c, h) := Host.getChar s.host
      some (.success, (s.setReg 0 (charValue w c)).setHost h)
    else
      let (result, pc, h) := memoryRead s.host s.regs.pc address
      some (if result = .success then .success else .errorRead,
        ((s.setReg 7 s.regs.pc).setPC pc).setHost h)

end

end LC3Tools.Sim
