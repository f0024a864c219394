import LC3Tools.Runs
import LC3Tools.Sim.Decode

/-! The two simulators side by side, both in their 16-bit builds and the C++ one with
the objects of `main.cpp`. They keep the condition code differently: PSR holds the
flag bits, NumCC only the number of a register whose sign is taken when BR asks. -/
namespace LC3Tools.Agreement
open InstrParser Vm Sim

abbrev SimState := State (SimpleHost 65535 16) 16

/-- Equal registers, memory and streams; PSR holds the flag that BR would compute. -/
structure Agrees (vm : VmImpl) (s : SimState) : Prop where
  reg : vm.reg = s.regs.reg
  pc : vm.pc = s.regs.pc
  mem : ∀ a : BitVec 16, a.toNat < addrMax → vm.mem a = s.host.memory a
  console : vm.console = s.host.console
  flag : vm.psr &&& 0b111 = BitVec.ofNat 16 s.flag.bits

/-- Accessible memory that is not one of the device registers. -/
def Ordinary (a : BitVec 16) : Prop :=
  a.toNat < addrMax ∧ a ≠ addrKBSR ∧ a ≠ addrKBDR ∧ a ≠ addrDSR ∧ a ≠ addrDDR

instance (a : BitVec 16) : Decidable (Ordinary a) :=
  inferInstanceAs (Decidable (_ ∧ _))

def opcodeOf (instr : BitVec 16) : Opcode := Opcode.ofCode (instr >>> 12).toNat

/-- The addresses one instruction touches. The C++ simulator reads all twelve bits
behind the code of TRAP as a signed vector, the C simulator the low eight; a vector
0x20 is GETC in both and touches nothing. -/
def touched (instr : BitVec 16) (s : SimState) : List (BitVec 16) :=
  let pcOffset := s.regs.pc + sextend instr 9
  match opcodeOf instr with
  | .LD | .ST => [pcOffset]
  | .LDR | .STR => [s.regs.reg (regIndex ((instr >>> 6) &&& 0b111)) + sextend instr 6]
  | .LDI | .STI => [pcOffset, s.host.memory pcOffset]
  | .TRAP => [sextend instr 12, instr &&& 0xff].filter (· ≠ 0x20)
  | _ => []

def OrdinaryStep (instr : BitVec 16) (s : SimState) : Prop :=
  ∀ a ∈ touched instr s, Ordinary a

instance (instr : BitVec 16) (s : SimState) : Decidable (OrdinaryStep instr s) :=
  List.decidableBAll (Ordinary ·) (touched instr s)

/-- When one instruction keeps the two simulators together. Only three operation
codes are in question. STI records its source register as the one that carries the
condition code; JSR and TRAP write R7, and GETC R0, whose sign may be the condition
code; and the two disagree about the vector of TRAP and about bytes above 127. -/
def StepsAlike (instr : BitVec 16) (s : SimState) : Prop :=
  match opcodeOf instr with
  | .STI => signFlag (s.regs.reg (regIndex ((instr >>> 9) &&& 0b111))) = s.flag
  | .JSR => s.regs.numCC = 7 → signFlag s.regs.pc = s.flag
  | .TRAP =>
    if sextend instr 12 = 0x20 then
      (∀ b ∈ s.host.console.input.head?, b.msb = false) ∧
        (s.regs.numCC = 0 → signFlag (s.host.console.getchar.1.setWidth 16) = s.flag)
    else if instr &&& 0xff = 0x20 then
      s.host.memory (sextend instr 12) = s.regs.pc ∧ s.regs.reg 7 = s.regs.pc ∧
        s.regs.reg 0 = -1 ∧ s.host.console.input = []
    else
      s.host.memory (sextend instr 12) = s.host.memory (instr &&& 0xff) ∧
        (s.regs.numCC = 7 → signFlag s.regs.pc = s.flag)
  | _ => True

theorem vmSignFlag_eq (v : BitVec 16) : vmSignFlag v = signFlag v := by
  have top : v &&& signBit ≠ 0 ↔ v.msb = true := by
    rw [show signBit = BitVec.twoPow 16 15 from rfl, BitVec.and_twoPow,
      BitVec.msb_eq_getLsbD_last]
    cases v.getLsbD 15 <;> decide
  simp only [vmSignFlag, signFlag, top]

theorem flag_word (f : Flag) : BitVec.ofNat 16 f.bits &&& 0b111 = BitVec.ofNat 16 f.bits := by
  cases f <;> rfl

theorem flag_word_injective {f g : Flag}
    (same : BitVec.ofNat 16 f.bits = BitVec.ofNat 16 g.bits) : f = g := by
  cases f <;> cases g <;> first | rfl | exact absurd same (by decide)

section access
variable {vm : VmImpl} {s : SimState} {a : BitVec 16}

theorem memoryRead_ordinary (h : SimpleHost 65535 16) (out : BitVec 16) (ordinary : Ordinary a) :
    memoryRead h out a = (.success, h.memory a, h) := by
  obtain ⟨low, h₁, h₂, h₃, h₄⟩ := ordinary
  have low' : a.toNat < 65535 := low
  rw [memoryRead, if_neg (show a ≠ addressKBSR 16 from h₁),
    if_neg (show a ≠ addressKBDR 16 from h₂), if_neg (show a ≠ addressDSR 16 from h₃),
    if_neg (show a ≠ addressDDR 16 from h₄)]
  simp only [Host.read, if_pos low']

theorem memoryWrite_ordinary (h : SimpleHost 65535 16) (v : BitVec 16) (ordinary : Ordinary a) :
    memoryWrite h v a =
      (.success, { h with memory := fun x => if x = a then v else h.memory x }) := by
  obtain ⟨low, h₁, h₂, h₃, h₄⟩ := ordinary
  have low' : a.toNat < 65535 := low
  have device : ¬ (a = addressKBSR 16 ∨ a = addressKBDR 16 ∨ a = addressDSR 16) :=
    fun h => h.elim h₁ fun h => h.elim h₂ h₃
  rw [memoryWrite, if_neg device, if_neg (show a ≠ addressDDR 16 from h₄)]
  simp only [Host.write, if_pos low']

theorem vmRead_ordinary (vm : VmImpl) (out : BitVec 16) (ordinary : Ordinary a) :
    vmRead vm a out = (.success, vm.mem a, vm) := by
  obtain ⟨low, h₁, h₂, h₃, h₄⟩ := ordinary
  simp only [vmRead]
  rw [if_neg h₁, if_neg h₂, if_neg h₃, if_neg h₄]
  simp only [vmMemRead, if_neg (Nat.not_le_of_lt low)]

theorem vmWrite_ordinary (vm : VmImpl) (v : BitVec 16) (ordinary : Ordinary a) :
    vmWrite vm a v = (.success, { vm with mem := fun x => if x = a then v else vm.mem x }) := by
  obtain ⟨low, h₁, h₂, h₃, h₄⟩ := ordinary
  have device : ¬ (a = addrKBSR ∨ a = addrKBDR ∨ a = addrDSR) :=
    fun h => h.elim h₁ fun h => h.elim h₂ h₃
  simp only [vmWrite]
  rw [if_neg device, if_neg h₄, if_neg (Nat.not_le_of_lt low)]

end access

section effects
variable {vm : VmImpl} {s : SimState} (agrees : Agrees vm s)
include agrees

theorem agrees_write (r : Fin 8) (v : BitVec 16) :
    Agrees (vmSetcc (vm.setReg r v) r) ((s.setReg r v).setCC r) := by
  refine ⟨?_, agrees.pc, agrees.mem, agrees.console, ?_⟩
  · simp only [vmSetcc, VmImpl.setReg, State.setReg, State.setCC, Registers.set, agrees.reg]
  · simp only [vmSetcc, VmImpl.setReg, State.setReg, State.setCC, State.flag, vmSignFlag_eq,
      set_reg_same, if_true, flag_word]

/-- Writes that neither simulator turns into the condition code: they show exactly
when they hit the register NumCC names and change the sign class there. -/
theorem agrees_silent_write (r : Fin 8) (u v p q : BitVec 16) (c d : Console) :
    Agrees { vm.setReg r u with pc := p, console := c }
        (((s.setReg r v).setPC q).setHost ⟨s.host.memory, d⟩) ↔
      u = v ∧ p = q ∧ c = d ∧ (s.regs.numCC = r → signFlag v = s.flag) := by
  have after : (((s.setReg r v).setPC q).setHost ⟨s.host.memory, d⟩).flag =
      if s.regs.numCC = r then signFlag v else s.flag := by
    simp only [State.flag, State.setHost, State.setPC, State.setReg, set_reg, set_numCC]
    split <;> rfl
  constructor
  · intro h
    have written : u = v := by
      have at_r := congrFun h.reg r
      simpa [VmImpl.setReg, State.setReg, State.setPC, State.setHost] using at_r
    refine ⟨written, h.pc, h.console, ?_⟩
    intro hit
    have same := h.flag
    rw [after, if_pos hit] at same
    exact flag_word_injective (same.symm.trans agrees.flag)
  · rintro ⟨rfl, rfl, rfl, keeps⟩
    refine ⟨?_, rfl, agrees.mem, rfl, ?_⟩
    · simp only [VmImpl.setReg, State.setHost, State.setReg, State.setPC, Registers.set, agrees.reg]
    · show vm.psr &&& 0b111 = _
      rw [after]
      split
      · rename_i hit
        rw [keeps hit]
        exact agrees.flag
      · exact agrees.flag

theorem agrees_link (r : Fin 8) (v p q : BitVec 16) :
    Agrees { vm.setReg r v with pc := p } ((s.setReg r v).setPC q) ↔
      p = q ∧ (s.regs.numCC = r → signFlag v = s.flag) := by
  have general := agrees_silent_write agrees r v v p q vm.console s.host.console
  refine general.trans ?_
  simp only [agrees.console, true_and]

theorem agrees_jump (p : BitVec 16) : Agrees { vm with pc := p } (s.setPC p) :=
  ⟨agrees.reg, rfl, agrees.mem, agrees.console, agrees.flag⟩

theorem agrees_load (n : Fin 8) {a : BitVec 16} (ordinary : Ordinary a) :
    (vm.load n a).1 = .success ∧ (s.load n a).1 = .success ∧
      Agrees (vm.load n a).2 (s.load n a).2 := by
  simp only [VmImpl.load, State.load, State.readReg, vmRead_ordinary _ _ ordinary,
    memoryRead_ordinary _ _ ordinary, if_true, true_and, agrees.mem a ordinary.1]
  exact agrees_write agrees n _

theorem agrees_store (n : Fin 8) {a : BitVec 16} (ordinary : Ordinary a) :
    (vmWrite vm a (s.regs.reg n)).1 = .success ∧ (s.store n a).1 = .success ∧
      Agrees (vmWrite vm a (s.regs.reg n)).2 (s.store n a).2 ∧
      (Agrees (vmWrite vm a (s.regs.reg n)).2 ((s.store n a).2.setCC n) ↔
        signFlag (s.regs.reg n) = s.flag) := by
  simp only [State.store, vmWrite_ordinary _ _ ordinary, memoryWrite_ordinary _ _ ordinary,
    if_true, true_and]
  have memory (x : BitVec 16) (low : x.toNat < addrMax) :
      (if x = a then s.regs.reg n else vm.mem x) =
        if x = a then s.regs.reg n else s.host.memory x := by
    rw [agrees.mem x low]
  refine ⟨⟨agrees.reg, agrees.pc, memory, agrees.console, agrees.flag⟩, ?_, ?_⟩
  · intro h
    exact flag_word_injective (h.flag.symm.trans agrees.flag)
  · intro same
    refine ⟨agrees.reg, agrees.pc, memory, agrees.console, ?_⟩
    exact agrees.flag.trans (congrArg (fun f : Flag => BitVec.ofNat 16 f.bits) same.symm)

end effects

/-- `vm_perform` and the executer report the same thing: go on, or the zero word. -/
def Matched (res : Vm.Result) (e : Exception) : Prop :=
  (res = .success ∧ e = .success) ∨ (res = .opcodeNop ∧ e = .stop)

theorem nzp_test (f : Flag) (n : BitVec 16) :
    BitVec.ofNat 16 f.bits &&& n ≠ 0 ↔ f.bits &&& n.toNat ≠ 0 := by
  have small : f.bits < 2 ^ 16 := by cases f <;> decide
  rw [ne_eq, ne_eq, ← BitVec.toNat_inj, BitVec.toNat_and, BitVec.toNat_ofNat,
    Nat.mod_eq_of_lt small]
  rfl

theorem getchar_alike (c : Console) :
    c.getchar.1.setWidth 16 = charValue 16 (c.getchar.1.setWidth 8) ↔
      ∀ b ∈ c.input.head?, b.msb = false := by
  obtain ⟨input, polls, output⟩ := c
  cases input with
  | nil =>
    simp only [Console.getchar, charValue, List.head?_nil, Option.not_mem_none, false_imp_iff,
      implies_true, iff_true]
    decide
  | cons b bs =>
    have wide : (b.setWidth 32).setWidth 16 = b.setWidth 16 := by simp
    have back : (b.setWidth 32).setWidth 8 = b := by simp
    simp only [Console.getchar, charValue, List.head?_cons, Option.mem_some_iff, forall_eq', wide,
      back]
    constructor
    · intro same
      have top := congrArg BitVec.msb same
      simpa [BitVec.msb_setWidth, BitVec.msb_signExtend] using top.symm
    · intro plain
      exact (BitVec.signExtend_eq_setWidth_of_msb_false plain).symm

section trap
variable {vm : VmImpl} {s : SimState} (agrees : Agrees vm s)
include agrees

theorem agrees_getchar :
    Agrees { vm.setReg 0 (vm.console.getchar.1.setWidth 16) with console := vm.console.getchar.2 }
        ((s.setReg 0 (charValue 16 (Host.getChar s.host).1)).setHost (Host.getChar s.host).2) ↔
      (∀ b ∈ s.host.console.input.head?, b.msb = false) ∧
        (s.regs.numCC = 0 → signFlag (s.host.console.getchar.1.setWidth 16) = s.flag) := by
  have general := agrees_silent_write agrees 0 (vm.console.getchar.1.setWidth 16)
    (charValue 16 (Host.getChar s.host).1) vm.pc s.regs.pc vm.console.getchar.2
    s.host.console.getchar.2
  refine general.trans ?_
  have char : (Host.getChar s.host).1 = s.host.console.getchar.1.setWidth 8 := rfl
  rw [agrees.console, char, ← getchar_alike s.host.console]
  constructor
  · rintro ⟨same, -, -, keeps⟩
    exact ⟨same, same ▸ keeps⟩
  · rintro ⟨same, keeps⟩
    exact ⟨same, agrees.pc, rfl, same ▸ keeps⟩

/-- A vector whose low eight bits alone are 0x20: GETC here, a jump there. The two
then agree only when both change nothing. -/
theorem agrees_getchar_jump (p : BitVec 16) :
    Agrees { vm.setReg 0 (vm.console.getchar.1.setWidth 16) with console := vm.console.getchar.2 }
        ((s.setReg 7 s.regs.pc).setPC p) ↔
      p = s.regs.pc ∧ s.regs.reg 7 = s.regs.pc ∧ s.regs.reg 0 = -1 ∧
        s.host.console.input = [] := by
  have last : (-1 : BitVec 32).setWidth 16 = -1 := by decide
  constructor
  · intro after
    have jumped : vm.pc = p := after.pc
    have streams : vm.console.getchar.2 = s.host.console := after.console
    have kept : s.regs.reg 7 = s.regs.pc := by
      have at_7 := congrFun after.reg 7
      simpa [VmImpl.setReg, State.setReg, State.setPC, agrees.reg] using at_7
    have read : vm.console.getchar.1.setWidth 16 = s.regs.reg 0 := by
      have at_0 := congrFun after.reg 0
      simpa [VmImpl.setReg, State.setReg, State.setPC, set_reg] using at_0
    have ended : s.host.console.input = [] := by
      rw [← agrees.console] at streams ⊢
      cases empty : vm.console.input with
      | nil => rfl
      | cons b bs =>
        have length := congrArg (fun c : Console => c.input.length) streams
        simp [Console.getchar, empty] at length
    refine ⟨jumped ▸ agrees.pc, kept, ?_, ended⟩
    rw [← read, agrees.console, Console.getchar, ended]
    exact last
  · rintro ⟨rfl, kept, read, ended⟩
    have streams : vm.console.getchar = (-1, s.host.console) := by
      rw [agrees.console, Console.getchar, ended]
    rw [streams, last]
    have unread : (vm.setReg 0 (-1)).reg = vm.reg := by
      funext i
      by_cases zero : i = 0
      · simp only [VmImpl.setReg, zero, if_true, agrees.reg, read]
      · simp only [VmImpl.setReg, zero, if_false]
    have unlinked : (s.regs.set 7 s.regs.pc) = s.regs := by
      have regs : (s.regs.set 7 s.regs.pc).reg = s.regs.reg := by
        funext i
        by_cases seven : i = 7
        · rw [seven, set_reg_same, kept]
        · exact set_reg_other _ _ _ seven
      exact congrArg (fun f => { s.regs with reg := f }) regs
    have same : (s.setReg 7 s.regs.pc).setPC s.regs.pc = s := by
      rw [State.setReg, unlinked]
      rfl
    rw [same]
    exact ⟨unread.trans agrees.reg, agrees.pc, agrees.mem, rfl, agrees.flag⟩

end trap

/-- The same instruction of both, matched, and what decides that they agree behind it. -/
def StepAgrees (vm : VmImpl) (instr : BitVec 16) (s : SimState) : Prop :=
  ∃ e s', executeOneInstruction 16 instr s = some (e, s') ∧ Matched (vmPerform vm instr).1 e ∧
    (Agrees (vmPerform vm instr).2 s' ↔ StepsAlike instr s)

theorem matched_success : Matched .success .success := .inl ⟨rfl, rfl⟩

section step
variable {vm : VmImpl} {s : SimState} {instr : BitVec 16}

theorem step_br (agrees : Agrees vm s) (op : opcodeOf instr = .BR) :
    StepAgrees vm instr s := by
  unfold StepAgrees
  have pc := agrees.pc
  have flag := agrees.flag
  simp only [StepsAlike, op, iff_true]
  simp only [opcodeOf] at op
  simp only [executeOneInstruction, vmPerform, operCode_narrow, op, intAfterNum1_narrow,
    regNum1_narrow, pc, flag, nzp_test]
  by_cases nop : instr = 0
  · subst nop
    refine ⟨_, _, rfl, .inr ⟨rfl, rfl⟩, ?_⟩
    simpa using agrees
  · simp only [if_neg nop]
    split
    · exact ⟨_, _, rfl, matched_success, agrees_jump agrees _⟩
    · exact ⟨_, _, rfl, matched_success, agrees⟩

theorem step_add (agrees : Agrees vm s) (op : opcodeOf instr = .ADD) :
    StepAgrees vm instr s := by
  unfold StepAgrees
  have reg := agrees.reg
  simp only [StepsAlike, op, iff_true]
  simp only [opcodeOf] at op
  simp only [executeOneInstruction, vmPerform, operCode_narrow, op, intAfterNum2Flag_narrow,
    intAfterNum2WithFlag_narrow, regIndex_regNum1_narrow, regIndex_regNum2_narrow,
    regIndex_regNum3_narrow, ne_eq, reg]
  exact ⟨_, _, rfl, matched_success, agrees_write agrees _ _⟩

theorem step_and (agrees : Agrees vm s) (op : opcodeOf instr = .AND) :
    StepAgrees vm instr s := by
  unfold StepAgrees
  have reg := agrees.reg
  simp only [StepsAlike, op, iff_true]
  simp only [opcodeOf] at op
  simp only [executeOneInstruction, vmPerform, operCode_narrow, op, intAfterNum2Flag_narrow,
    intAfterNum2WithFlag_narrow, regIndex_regNum1_narrow, regIndex_regNum2_narrow,
    regIndex_regNum3_narrow, ne_eq, reg]
  exact ⟨_, _, rfl, matched_success, agrees_write agrees _ _⟩

theorem step_not (agrees : Agrees vm s) (op : opcodeOf instr = .NOT) :
    StepAgrees vm instr s := by
  unfold StepAgrees
  have reg := agrees.reg
  simp only [StepsAlike, op, iff_true]
  simp only [opcodeOf] at op
  simp only [executeOneInstruction, vmPerform, operCode_narrow, op, regIndex_regNum1_narrow,
    regIndex_regNum2_narrow, reg]
  exact ⟨_, _, rfl, matched_success, agrees_write agrees _ _⟩

theorem step_lea (agrees : Agrees vm s) (op : opcodeOf instr = .LEA) :
    StepAgrees vm instr s := by
  unfold StepAgrees
  have pc := agrees.pc
  simp only [StepsAlike, op, iff_true]
  simp only [opcodeOf] at op
  simp only [executeOneInstruction, vmPerform, operCode_narrow, op, intAfterNum1_narrow,
    regIndex_regNum1_narrow, pc]
  exact ⟨_, _, rfl, matched_success, agrees_write agrees _ _⟩

theorem step_jmp (agrees : Agrees vm s) (op : opcodeOf instr = .JMP) :
    StepAgrees vm instr s := by
  unfold StepAgrees
  have reg := agrees.reg
  simp only [StepsAlike, op, iff_true]
  simp only [opcodeOf] at op
  simp only [executeOneInstruction, vmPerform, operCode_narrow, op, regIndex_regNum2_narrow,
    congrFun reg]
  exact ⟨_, _, rfl, matched_success, agrees_jump agrees _⟩

theorem step_ld (agrees : Agrees vm s) (ordinary : OrdinaryStep instr s)
    (op : opcodeOf instr = .LD) :
    StepAgrees vm instr s := by
  unfold StepAgrees
  have pc := agrees.pc
  have a : Ordinary (s.regs.pc + sextend instr 9) := ordinary _ (by simp [touched, op])
  obtain ⟨ok, ok', after⟩ := agrees_load agrees (regIndex ((instr >>> 9) &&& 0b111)) a
  simp only [StepsAlike, op, iff_true]
  simp only [opcodeOf] at op
  simp only [executeOneInstruction, vmPerform, operCode_narrow, op, intAfterNum1_narrow,
    regIndex_regNum1_narrow, pc]
  exact ⟨_, _, rfl, .inl ⟨ok, ok'⟩, after⟩

theorem step_ldr (agrees : Agrees vm s) (ordinary : OrdinaryStep instr s)
    (op : opcodeOf instr = .LDR) :
    StepAgrees vm instr s := by
  unfold StepAgrees
  have reg := agrees.reg
  have a : Ordinary (s.regs.reg (regIndex ((instr >>> 6) &&& 0b111)) + sextend instr 6) :=
    ordinary _ (by simp [touched, op])
  obtain ⟨ok, ok', after⟩ := agrees_load agrees (regIndex ((instr >>> 9) &&& 0b111)) a
  simp only [StepsAlike, op, iff_true]
  simp only [opcodeOf] at op
  simp only [executeOneInstruction, vmPerform, operCode_narrow, op, intAfterNum2_narrow,
    regIndex_regNum1_narrow, regIndex_regNum2_narrow, reg]
  exact ⟨_, _, rfl, .inl ⟨ok, ok'⟩, after⟩

theorem step_ldi (agrees : Agrees vm s) (ordinary : OrdinaryStep instr s)
    (op : opcodeOf instr = .LDI) :
    StepAgrees vm instr s := by
  unfold StepAgrees
  have pc := agrees.pc
  have a : Ordinary (s.regs.pc + sextend instr 9) := ordinary _ (by simp [touched, op])
  have b : Ordinary (s.host.memory (s.regs.pc + sextend instr 9)) :=
    ordinary _ (by simp [touched, op])
  obtain ⟨ok, ok', after⟩ := agrees_load agrees (regIndex ((instr >>> 9) &&& 0b111)) b
  simp only [StepsAlike, op, iff_true]
  simp only [opcodeOf] at op
  simp only [executeOneInstruction, vmPerform, operCode_narrow, op, intAfterNum1_narrow,
    regIndex_regNum1_narrow, pc, vmRead_ordinary _ _ a, memoryRead_ordinary _ _ a,
    agrees.mem _ a.1, ne_eq, not_true_eq_false, if_false]
  exact ⟨_, _, rfl, .inl ⟨ok, ok'⟩, after⟩

theorem step_st (agrees : Agrees vm s) (ordinary : OrdinaryStep instr s)
    (op : opcodeOf instr = .ST) :
    StepAgrees vm instr s := by
  unfold StepAgrees
  have reg := agrees.reg
  have pc := agrees.pc
  have a : Ordinary (s.regs.pc + sextend instr 9) := ordinary _ (by simp [touched, op])
  obtain ⟨ok, ok', after, -⟩ := agrees_store agrees (regIndex ((instr >>> 9) &&& 0b111)) a
  simp only [StepsAlike, op, iff_true]
  simp only [opcodeOf] at op
  simp only [executeOneInstruction, vmPerform, operCode_narrow, op, intAfterNum1_narrow,
    regIndex_regNum1_narrow, reg, pc]
  exact ⟨_, _, rfl, .inl ⟨ok, ok'⟩, after⟩

theorem step_str (agrees : Agrees vm s) (ordinary : OrdinaryStep instr s)
    (op : opcodeOf instr = .STR) :
    StepAgrees vm instr s := by
  unfold StepAgrees
  have reg := agrees.reg
  have a : Ordinary (s.regs.reg (regIndex ((instr >>> 6) &&& 0b111)) + sextend instr 6) :=
    ordinary _ (by simp [touched, op])
  obtain ⟨ok, ok', after, -⟩ := agrees_store agrees (regIndex ((instr >>> 9) &&& 0b111)) a
  simp only [StepsAlike, op, iff_true]
  simp only [opcodeOf] at op
  simp only [executeOneInstruction, vmPerform, operCode_narrow, op, intAfterNum2_narrow,
    regIndex_regNum1_narrow, regIndex_regNum2_narrow, reg]
  exact ⟨_, _, rfl, .inl ⟨ok, ok'⟩, after⟩

theorem step_sti (agrees : Agrees vm s) (ordinary : OrdinaryStep instr s)
    (op : opcodeOf instr = .STI) :
    StepAgrees vm instr s := by
  unfold StepAgrees
  have reg := agrees.reg
  have pc := agrees.pc
  have a : Ordinary (s.regs.pc + sextend instr 9) := ordinary _ (by simp [touched, op])
  have b : Ordinary (s.host.memory (s.regs.pc + sextend instr 9)) :=
    ordinary _ (by simp [touched, op])
  obtain ⟨ok, ok', -, after⟩ := agrees_store agrees (regIndex ((instr >>> 9) &&& 0b111)) b
  simp only [StepsAlike, op]
  simp only [opcodeOf] at op
  simp only [executeOneInstruction, vmPerform, operCode_narrow, op, intAfterNum1_narrow,
    regIndex_regNum1_narrow, reg, pc, vmRead_ordinary _ _ a, memoryRead_ordinary _ _ a,
    agrees.mem _ a.1, ne_eq, not_true_eq_false, if_false]
  refine ⟨_, _, rfl, .inl ⟨ok, ok'⟩, ?_⟩
  rw [if_pos (show ((s.setHost s.host).store _ _).1 = .success from ok')]
  exact after

theorem step_jsr (agrees : Agrees vm s) (op : opcodeOf instr = .JSR) :
    StepAgrees vm instr s := by
  unfold StepAgrees
  have reg := agrees.reg
  have pc := agrees.pc
  simp only [StepsAlike, op]
  simp only [opcodeOf] at op
  simp only [executeOneInstruction, vmPerform, operCode_narrow, op, intAfterOperFlag_narrow,
    intAfterOperWithFlag_narrow, regIndex_regNum2_narrow, ne_eq, reg, pc]
  split
  · refine ⟨_, _, rfl, matched_success, (agrees_link agrees 7 _ _ _).trans ?_⟩
    simp only [true_and]
  · refine ⟨_, _, rfl, matched_success, (agrees_link agrees 7 _ _ _).trans ?_⟩
    simp only [true_and]

theorem step_trap (agrees : Agrees vm s) (ordinary : OrdinaryStep instr s)
    (op : opcodeOf instr = .TRAP) :
    StepAgrees vm instr s := by
  unfold StepAgrees
  have pc := agrees.pc
  simp only [StepsAlike, op]
  have code := op
  simp only [opcodeOf] at op
  simp only [executeOneInstruction, vmPerform, operCode_narrow, op, trap_narrow, pc]
  by_cases wide : sextend instr 12 = 0x20
  · have narrow := trapvect_of_signed wide
    simp only [if_pos wide, if_pos narrow]
    exact ⟨_, _, rfl, matched_success, agrees_getchar agrees⟩
  · have a : Ordinary (sextend instr 12) :=
      ordinary _ (by simpa [touched, code] using wide)
    simp only [if_neg wide, memoryRead_ordinary _ _ a, if_true]
    by_cases narrow : instr &&& 0xff = 0x20
    · simp only [if_pos narrow]
      exact ⟨_, _, rfl, matched_success, agrees_getchar_jump agrees _⟩
    · have b : Ordinary (instr &&& 0xff) :=
        ordinary _ (by simpa [touched, code] using narrow)
      simp only [if_neg narrow, vmRead_ordinary _ _ b]
      refine ⟨_, _, rfl, matched_success, (agrees_link agrees 7 _ _ _).trans ?_⟩
      rw [VmImpl.setReg, agrees.mem _ b.1, eq_comm]

end step

theorem step_agrees {vm : VmImpl} {s : SimState} (agrees : Agrees vm s) (instr : BitVec 16)
    (defined : opcodeOf instr ≠ .RTI ∧ opcodeOf instr ≠ .RES)
    (ordinary : OrdinaryStep instr s) :
    ∃ e s', executeOneInstruction 16 instr s = some (e, s') ∧
      Matched (vmPerform vm instr).1 e ∧
      (Agrees (vmPerform vm instr).2 s' ↔ StepsAlike instr s) := by
  cases op : opcodeOf instr with
  | RTI => exact absurd op defined.1
  | RES => exact absurd op defined.2
  | BR => exact step_br agrees op
  | ADD => exact step_add agrees op
  | AND => exact step_and agrees op
  | NOT => exact step_not agrees op
  | LEA => exact step_lea agrees op
  | JMP => exact step_jmp agrees op
  | LD => exact step_ld agrees ordinary op
  | LDR => exact step_ldr agrees ordinary op
  | LDI => exact step_ldi agrees ordinary op
  | ST => exact step_st agrees ordinary op
  | STR => exact step_str agrees ordinary op
  | STI => exact step_sti agrees ordinary op
  | JSR => exact step_jsr agrees op
  | TRAP => exact step_trap agrees ordinary op

end LC3Tools.Agreement
