import LC3Tools.Sim.Agreement

/-! Runs of the two simulators side by side: the bounded loop of `Processor::Run`
against the turns of `vm_run`, one instruction each. -/
namespace LC3Tools.Agreement
open Vm Sim Runs

abbrev SimProcessor := Processor (SimpleHost 65535 16) 16

/-- One turn of the C++ loop that does not leave it. -/
def turn (config : ProcessorConfig 16) (p : SimProcessor) (_ : Unit) : Option SimProcessor :=
  match iteration 16 config p with
  | some (.success, p') => some p'
  | _ => none

/-- The state in which the fetched word is executed. -/
def SimProcessor.fetched (p : SimProcessor) : SimState := p.state.setPC (p.state.regs.pc + 1)

def SimProcessor.instruction (p : SimProcessor) : BitVec 16 := p.state.host.memory p.state.regs.pc

/-- What a turn must meet: the run bit of the machine-control register is set, the
fetch and the instruction stay in ordinary memory, the instruction is in the common
set, and it is one that keeps the simulators together. -/
structure GoodTurn (p : SimProcessor) (_ : Unit) : Prop where
  running : p.state.host.memory addrMCR &&& Vm.statusBit ≠ 0
  fetch : Ordinary p.state.regs.pc
  defined : opcodeOf p.instruction ≠ .RTI ∧ opcodeOf p.instruction ≠ .RES
  ordinary : OrdinaryStep p.instruction p.fetched
  alike : StepsAlike p.instruction p.fetched

theorem mcr_ordinary : Ordinary addrMCR := by decide

theorem vmCycle_fetch {vm : VmImpl} {p : SimProcessor} (agrees : Agrees vm p.state)
    (running : p.state.host.memory addrMCR &&& Vm.statusBit ≠ 0)
    (fetch : Ordinary p.state.regs.pc) :
    vmCycle vm = vmPerform { vm with pc := p.fetched.regs.pc } p.instruction := by
  have bit : vm.mem addrMCR &&& Vm.statusBit ≠ 0 := by
    rw [agrees.mem _ mcr_ordinary.1]
    exact running
  have here : vm.mem vm.pc = p.instruction := by
    rw [agrees.pc, agrees.mem _ fetch.1]
    rfl
  have there : vm.pc + 1 = p.fetched.regs.pc := congrArg (· + 1) agrees.pc
  have ordinary : Ordinary vm.pc := agrees.pc ▸ fetch
  simp only [vmCycle, vmRead_ordinary _ _ mcr_ordinary, vmRead_ordinary _ _ ordinary, ne_eq,
    not_true_eq_false, if_false, if_neg bit, here, there]

theorem turn_agrees (config : ProcessorConfig 16) {vm : VmImpl} {p : SimProcessor}
    (agrees : Agrees vm p.state) (good : GoodTurn p ()) :
    ∃ e p', iteration 16 config p = some (e, p') ∧ Matched (vmCycle vm).1 e ∧
      Agrees (vmCycle vm).2 p'.state := by
  have start : Agrees { vm with pc := p.fetched.regs.pc } p.fetched := agrees_jump agrees _
  obtain ⟨e, s', executed, matched, after⟩ :=
    step_agrees start p.instruction good.defined good.ordinary
  rw [vmCycle_fetch agrees good.running good.fetch]
  have left : e = .success ∨ e = .stop ∨ e = .rti := by
    rcases matched with ⟨-, h⟩ | ⟨-, h⟩
    · exact .inl h
    · exact .inr (.inl h)
  refine ⟨e, { p with state := s' }, ?_, matched, after.mpr good.alike⟩
  have executed' : executeOneInstruction 16 (p.state.host.memory p.state.regs.pc)
      ((p.state.setHost p.state.host).setPC (p.state.regs.pc + 1)) = some (e, s') := executed
  simp only [iteration, memoryRead_ordinary _ _ good.fetch, ne_eq, not_true_eq_false, if_false,
    executed', Option.map_some, if_pos left]

/-- The loops from any count, by induction on the turns that are left. -/
theorem loops_agree (config : ProcessorConfig 16) (n count : Nat) {vm : VmImpl} {p : SimProcessor}
    (agrees : Agrees vm p.state)
      (good : Throughout (turn config) GoodTurn p (List.replicate n ())) :
    ∃ e count' p', runLoop 16 config n count .success p = some (e, count', p') ∧
      Matched (vmRun n vm).1 e ∧ Agrees (vmRun n vm).2 p'.state := by
  induction n generalizing count vm p with
  | zero => exact ⟨_, _, _, rfl, .inl ⟨rfl, rfl⟩, agrees⟩
  | succ n ih =>
    obtain ⟨now, later⟩ := good
    obtain ⟨e, p', iterated, matched, after⟩ := turn_agrees config agrees now
    simp only [runLoop, iterated, Option.bind_some, vmRun]
    rcases matched with ⟨ok, rfl⟩ | ⟨nop, rfl⟩
    · have next := later p' (by simp only [turn, iterated])
      simpa [ok] using ih (count + 1) after next
    · refine ⟨.stop, count, p', by simp, ?_⟩
      rw [if_neg (show ¬ (vmCycle vm).1 = .success by rw [nop]; decide)]
      exact ⟨.inr ⟨nop, rfl⟩, after⟩

/-- Step by step the simulators agree exactly on the steps `StepsAlike` describes, and
they agree on every run, of any length, that is made of such steps. -/
theorem simulators_agree (vm : VmImpl) :
    (∀ (s : SimState) (instr : BitVec 16), Agrees vm s →
      opcodeOf instr ≠ .RTI ∧ opcodeOf instr ≠ .RES → OrdinaryStep instr s →
      ∃ e s', executeOneInstruction 16 instr s = some (e, s') ∧ Matched (vmPerform vm instr).1 e ∧
        (Agrees (vmPerform vm instr).2 s' ↔ StepsAlike instr s)) ∧
    (∀ (n : Nat) (config : ProcessorConfig 16) (p : SimProcessor), Agrees vm p.state →
      Throughout (turn config) GoodTurn p (List.replicate n ()) →
      ∃ e count p', runLoop 16 config n 1 .success p = some (e, count, p') ∧
        Matched (vmRun n vm).1 e ∧ Agrees (vmRun n vm).2 p'.state) :=
  ⟨fun _ instr agrees defined ordinary => step_agrees agrees instr defined ordinary,
    fun n config _ agrees good => loops_agree config n 1 agrees good⟩

/-- `x3000: STI R1, #0` with the pointer x4000 behind it, R1 = 1 and the condition
code zero, set by R0. -/
def stiHost : SimpleHost 65535 16 where
  memory a := if a = 0x3000 then 0xb200 else if a = 0x3001 then 0x4000 else 0x8000
  console := ⟨[], [], []⟩

def stiState : SimState := ⟨⟨fun i => if i = 1 then 1 else 0, 0x3001, 0⟩, stiHost⟩

def stiVm : VmImpl := ⟨stiHost.memory, stiState.regs.reg, 0x3001, 0b010, stiHost.console⟩

theorem sti_start : Agrees stiVm stiState :=
  ⟨rfl, rfl, fun _ _ => rfl, rfl, by decide⟩

theorem sti_code : opcodeOf 0xb200 = .STI := by decide +kernel

theorem sti_defined : opcodeOf 0xb200 ≠ .RTI ∧ opcodeOf 0xb200 ≠ .RES := by
  rw [sti_code]
  decide

theorem sti_ordinary : OrdinaryStep 0xb200 stiState := by decide +kernel

/-- The same store fetched from x3000, the condition code now kept in R1 itself. -/
def stiProcessor : SimProcessor := ⟨⟨⟨stiState.regs.reg, 0x3000, 1⟩, stiHost⟩, 0⟩

def stiFetch : VmImpl := { stiVm with pc := 0x3000, psr := 0b001 }

theorem sti_good : GoodTurn stiProcessor () where
  running := by decide +kernel
  fetch := by decide +kernel
  defined := sti_defined
  ordinary := by decide +kernel
  alike := by
    have same : signFlag (stiProcessor.fetched.regs.reg 1) = stiProcessor.fetched.flag := rfl
    have code : opcodeOf stiProcessor.instruction = .STI := sti_code
    simp only [StepsAlike, code]
    exact same

theorem simulators_agree_sti :
    (∃ e s', executeOneInstruction 16 0xb200 stiState = some (e, s') ∧
      Matched (vmPerform stiVm 0xb200).1 e ∧
      (Agrees (vmPerform stiVm 0xb200).2 s' ↔ StepsAlike 0xb200 stiState)) ∧
    ∃ e count p', runLoop 16 ⟨0, 0, 0⟩ 1 1 .success stiProcessor = some (e, count, p') ∧
      Matched (vmRun 1 stiFetch).1 e ∧ Agrees (vmRun 1 stiFetch).2 p'.state :=
  ⟨(simulators_agree stiVm).1 stiState 0xb200 sti_start sti_defined sti_ordinary,
    (simulators_agree stiFetch).2 1 ⟨0, 0, 0⟩ stiProcessor
      ⟨rfl, rfl, fun _ _ => rfl, rfl, by decide⟩ ⟨sti_good, fun _ _ => trivial⟩⟩

/-- STI stores a positive register: the C++ simulator now reports positive, `vm.c`
still reports zero. -/
theorem sti_disagrees :
    Agrees stiVm stiState ∧ opcodeOf 0xb200 = .STI ∧ OrdinaryStep 0xb200 stiState ∧
      ∃ e s', executeOneInstruction 16 0xb200 stiState = some (e, s') ∧
        s'.flag = .positive ∧ (vmPerform stiVm 0xb200).2.psr &&& 0b111 = 0b010 ∧
        ¬ Agrees (vmPerform stiVm 0xb200).2 s' := by
  obtain ⟨e, s', executed, -, after⟩ := step_agrees sti_start 0xb200 sti_defined sti_ordinary
  have stored : (executeOneInstruction 16 0xb200 stiState).map (·.2.flag) = some .positive := by
    decide +kernel
  have flag : s'.flag = .positive := by
    rw [executed] at stored
    exact Option.some.inj stored
  refine ⟨sti_start, sti_code, sti_ordinary, e, s', executed, flag, by decide +kernel, ?_⟩
  intro same
  have alike := after.mp same
  simp only [StepsAlike, sti_code] at alike
  exact absurd alike (by decide +kernel)

end LC3Tools.Agreement
