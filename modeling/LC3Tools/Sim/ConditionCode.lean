import LC3Tools.Runs
import LC3Tools.Sim.Console

/-! The condition code of the C++ simulator. No flag is stored: NumCC names the
register of the last instruction that set the condition code, and BR takes the sign
of what that register holds by then. The runs here carry the value such an
instruction last wrote, which the executer itself forgets. -/
namespace LC3Tools.ConditionCode
open InstrParser Sim Runs

section
variable {H : Type} {w : Nat} [Host H w]

/-- The instruction a driver fetched, with the program counter and the environment
it hands over to the executer. -/
structure Fetched (H : Type) (w : Nat) where
  instr : BitVec w
  pc : BitVec w
  host : H

/-- A machine state and the last value that the condition code should describe. -/
structure Traced (H : Type) (w : Nat) where
  state : State H w
  last : Option (BitVec w)

/-- The instructions that set the condition code when they succeed. -/
def setsCC (ib : Nat) (instr : BitVec w) : Bool :=
  let i := instr.setWidth 64
  match Opcode.ofCode (operCode ib i).toNat with
  | .ADD | .AND | .NOT | .LD | .LDI | .LDR | .LEA => true
  | .RES => (ResOpcode.ofParam (paramAfterNum2 ib i).toNat).isSome
  | _ => false

/-- The register that `SET_CC_REG_NUM1` names. -/
def destination (ib : Nat) (instr : BitVec w) : Fin 8 := regIndex (regNum1 ib (instr.setWidth 64))

def Traced.handOver (t : Traced H w) (f : Fetched H w) : State H w :=
  (t.state.setPC f.pc).setHost f.host

/-- One instruction, and the value it wrote if it is one that sets the condition code. -/
def cycle (ib : Nat) (t : Traced H w) (f : Fetched H w) : Option (Traced H w) :=
  (executeOneInstruction ib f.instr (t.handOver f)).map fun (e, s') =>
    ⟨s', if e = .success ∧ setsCC ib f.instr then some (s'.regs.reg (destination ib f.instr))
      else t.last⟩

/-- The flag the next BR tests is the sign class of the value last written. -/
def Right (t : Traced H w) : Prop := ∀ v ∈ t.last, t.state.flag = signFlag v

/-- A read that fails may still have stored to its out pointer, here a register. -/
def FailedReadKeeps (s : State H w) (n : Fin 8) (address : BitVec w) : Prop :=
  let (result, out, _) := memoryRead s.host (s.regs.reg n) address
  result ≠ .success → s.regs.numCC = n → signFlag out = s.flag

/-- When an instruction leaves the flag of the next BR to the value last written.
JSR and TRAP write R7 and GETC writes R0 behind the back of NumCC; STI, and RES with
the parameter that no operation has, name their source register in NumCC. -/
def KeepsFlag (ib : Nat) (instr : BitVec w) (s : State H w) : Prop :=
  let i := instr.setWidth 64
  let num1 := regIndex (regNum1 ib i)
  let pcOffset := s.regs.pc + (intAfterNum1 ib i).setWidth w
  match Opcode.ofCode (operCode ib i).toNat with
  | .LD => FailedReadKeeps s num1 pcOffset
  | .LDR =>
    FailedReadKeeps s num1 (s.regs.reg (regIndex (regNum2 ib i)) + (intAfterNum2 ib i).setWidth w)
  | .LDI =>
    let (result, address, h) := memoryRead s.host 0 pcOffset
    result = .success → FailedReadKeeps (s.setHost h) num1 address
  | .STI =>
    let (result, address, h) := memoryRead s.host 0 pcOffset
    result = .success → (memoryWrite h (s.regs.reg num1) address).1 = .success →
      signFlag (s.regs.reg num1) = s.flag
  | .JSR => s.regs.numCC = 7 → signFlag s.regs.pc = s.flag
  | .RES =>
    ResOpcode.ofParam (paramAfterNum2 ib i).toNat = none → signFlag (s.regs.reg num1) = s.flag
  | .TRAP =>
    if (trap ib i).setWidth w = 0x20 then
      s.regs.numCC = 0 → signFlag (charValue w (Host.getChar s.host).1) = s.flag
    else s.regs.numCC = 7 → signFlag s.regs.pc = s.flag
  | _ => True

section flags
variable (s : State H w) (n : Fin 8) (v : BitVec w) (h : H)
omit [Host H w]

@[simp] theorem flag_setPC : (s.setPC v).flag = s.flag := rfl
@[simp] theorem flag_setHost : (s.setHost h).flag = s.flag := rfl
@[simp] theorem flag_setCC : (s.setCC n).flag = signFlag (s.regs.reg n) := rfl

@[simp] theorem flag_setReg :
    (s.setReg n v).flag = if s.regs.numCC = n then signFlag v else s.flag := by
  simp only [State.flag, State.setReg, set_reg, set_numCC]
  split <;> rfl

theorem flag_silent : (s.setReg n v).flag = s.flag ↔ (s.regs.numCC = n → signFlag v = s.flag) := by
  rw [flag_setReg]
  split
  · rename_i hit
    exact ⟨fun same _ => same, fun keeps => keeps hit⟩
  · rename_i miss
    exact ⟨fun _ hit => absurd hit miss, fun _ => rfl⟩

end flags

/-- The flag after one instruction: set, or left alone exactly when `KeepsFlag` says so. -/
def FlagEffect (ib : Nat) (instr : BitVec w) (s : State H w) (e : Exception) (s' : State H w) :
    Prop :=
  if e = .success ∧ setsCC ib instr then
    s'.flag = signFlag (s'.regs.reg (destination ib instr)) ∧ KeepsFlag ib instr s
  else s'.flag = s.flag ↔ KeepsFlag ib instr s

theorem load_flag (s : State H w) (n : Fin 8) (address : BitVec w) :
    if (s.load n address).1 = .success then
      (s.load n address).2.flag = signFlag ((s.load n address).2.regs.reg n) ∧
        FailedReadKeeps s n address
    else (s.load n address).2.flag = s.flag ↔ FailedReadKeeps s n address := by
  obtain ⟨⟨result, out, h⟩, read⟩ : ∃ r, memoryRead s.host (s.regs.reg n) address = r := ⟨_, rfl⟩
  simp only [State.load, State.readReg, FailedReadKeeps, read]
  by_cases ok : result = .success
  · simp only [ok, if_true, flag_setCC]
    exact ⟨rfl, fun failed => absurd rfl failed⟩
  · simp only [reduceCtorEq, if_false, ne_eq, ok, not_false_eq_true, true_imp_iff]
    exact flag_silent s n out

theorem sti_flag (s : State H w) (n : Fin 8) (h : H) (address : BitVec w) {s' : State H w}
    {e : Exception}
    (stored : (((s.setHost h).store n address).1,
      if ((s.setHost h).store n address).1 = .success
        then ((s.setHost h).store n address).2.setCC n
        else ((s.setHost h).store n address).2) = (e, s')) :
    s'.flag = s.flag ↔
      ((memoryWrite h (s.regs.reg n) address).1 = .success → signFlag (s.regs.reg n) = s.flag) := by
  simp only [Prod.mk.injEq] at stored
  obtain ⟨-, rfl⟩ := stored
  by_cases ok : (memoryWrite h (s.regs.reg n) address).1 = .success
  · have success : ((s.setHost h).store n address).1 = .success := by
      rw [State.store]
      exact if_pos ok
    rw [if_pos success, flag_setCC]
    exact ⟨fun same _ => same, fun keeps => keeps ok⟩
  · have failed : ((s.setHost h).store n address).1 ≠ .success := by
      have error : ((s.setHost h).store n address).1 = .errorWrite := by
        rw [State.store]
        exact if_neg ok
      rw [error]
      decide
    rw [if_neg failed]
    exact iff_of_true rfl fun success => absurd success ok

section effect
variable {ib : Nat} {instr : BitVec w} {s s' : State H w} {e : Exception}

theorem effect_set (sets : setsCC ib instr = true) (keeps : KeepsFlag ib instr s)
    (flag : s'.flag = signFlag (s'.regs.reg (destination ib instr))) :
    FlagEffect ib instr s .success s' := by
  rw [FlagEffect, if_pos ⟨rfl, sets⟩]
  exact ⟨flag, keeps⟩

theorem effect_kept (other : setsCC ib instr = false)
    (kept : s'.flag = s.flag ↔ KeepsFlag ib instr s) : FlagEffect ib instr s e s' := by
  rw [FlagEffect, if_neg (fun h => by simp [other] at h)]
  exact kept

theorem effect_load (sets : setsCC ib instr = true) {t : State H w} {address : BitVec w}
    (same : t.flag = s.flag)
    (keeps : KeepsFlag ib instr s ↔ FailedReadKeeps t (destination ib instr) address) :
    FlagEffect ib instr s (t.load (destination ib instr) address).1
      (t.load (destination ib instr) address).2 := by
  have loaded := load_flag t (destination ib instr) address
  rw [FlagEffect, keeps, ← same]
  simpa only [sets, and_true] using loaded

theorem effect_ldi (op : Opcode.ofCode (operCode ib (instr.setWidth 64)).toNat = .LDI)
    (executed : executeOneInstruction ib instr s = some (e, s')) : FlagEffect ib instr s e s' := by
  have sets : setsCC ib instr = true := by simp only [setsCC, op]
  obtain ⟨⟨result, address, h⟩, read⟩ : ∃ r, memoryRead s.host 0
    (s.regs.pc + (intAfterNum1 ib (instr.setWidth 64)).setWidth w) = r := ⟨_, rfl⟩
  simp only [executeOneInstruction, op, read] at executed
  by_cases ok : result = .success
  · have keeps : KeepsFlag ib instr s ↔
        FailedReadKeeps (s.setHost h) (destination ib instr) address := by
      simp only [KeepsFlag, op, read, ok, true_imp_iff]
      rfl
    have effect := effect_load sets (flag_setHost s h) keeps
    simp only [ok, ne_eq, not_true_eq_false, if_false, Option.some.injEq] at executed
    rwa [destination, executed] at effect
  · have keeps : KeepsFlag ib instr s := by
      simp only [KeepsFlag, op, read]
      exact fun success => absurd success ok
    simp only [ne_eq, ok, not_false_eq_true, if_true] at executed
    cases executed
    rw [FlagEffect, if_neg (by simp)]
    exact iff_of_true rfl keeps

theorem effect_br (op : Opcode.ofCode (operCode ib (instr.setWidth 64)).toNat = .BR)
    (executed : executeOneInstruction ib instr s = some (e, s')) : FlagEffect ib instr s e s' := by
  have other : setsCC ib instr = false := by simp only [setsCC, op]
  have keeps : KeepsFlag ib instr s := by simp only [KeepsFlag, op]
  refine effect_kept other (iff_of_true ?_ keeps)
  simp only [executeOneInstruction, op] at executed
  split at executed
  · cases executed
    rfl
  · split at executed <;> cases executed <;> rfl

theorem effect_sti (op : Opcode.ofCode (operCode ib (instr.setWidth 64)).toNat = .STI)
    (executed : executeOneInstruction ib instr s = some (e, s')) : FlagEffect ib instr s e s' := by
  have other : setsCC ib instr = false := by simp only [setsCC, op]
  refine effect_kept other ?_
  obtain ⟨⟨result, address, h⟩, read⟩ : ∃ r, memoryRead s.host 0
    (s.regs.pc + (intAfterNum1 ib (instr.setWidth 64)).setWidth w) = r := ⟨_, rfl⟩
  simp only [KeepsFlag, op, read]
  simp only [executeOneInstruction, op, read] at executed
  by_cases ok : result = .success
  · simp only [ok, ne_eq, not_true_eq_false, if_false, Option.some.injEq] at executed
    simp only [ok, true_imp_iff]
    exact sti_flag s _ h address executed
  · simp only [ne_eq, ok, not_false_eq_true, if_true] at executed
    cases executed
    exact iff_of_true rfl fun success => absurd success ok

theorem effect_res (op : Opcode.ofCode (operCode ib (instr.setWidth 64)).toNat = .RES)
    (executed : executeOneInstruction ib instr s = some (e, s')) : FlagEffect ib instr s e s' := by
  obtain ⟨operation, param⟩ : ∃ o, ResOpcode.ofParam
    (paramAfterNum2 ib (instr.setWidth 64)).toNat = o := ⟨_, rfl⟩
  simp only [executeOneInstruction, op, param] at executed
  cases operation with
  | none =>
    have other : setsCC ib instr = false := by
      simp only [setsCC, op, param, Option.isSome_none]
    refine effect_kept other ?_
    cases executed
    simp only [KeepsFlag, op, param, true_imp_iff]
    rfl
  | some operation =>
    have sets : setsCC ib instr = true := by
      simp only [setsCC, op, param, Option.isSome_some]
    have keeps : KeepsFlag ib instr s := by
      simp only [KeepsFlag, op, param, reduceCtorEq, false_imp_iff]
    obtain ⟨v, -, written⟩ := Option.map_eq_some_iff.mp executed
    cases written
    exact effect_set sets keeps rfl

theorem effect_trap (op : Opcode.ofCode (operCode ib (instr.setWidth 64)).toNat = .TRAP)
    (executed : executeOneInstruction ib instr s = some (e, s')) : FlagEffect ib instr s e s' := by
  have other : setsCC ib instr = false := by simp only [setsCC, op]
  refine effect_kept other ?_
  simp only [KeepsFlag, op]
  simp only [executeOneInstruction, op] at executed
  split at executed <;> rename_i vector
  · cases executed
    rw [if_pos vector]
    exact flag_silent s 0 _
  · cases executed
    rw [if_neg vector]
    exact flag_silent s 7 s.regs.pc

end effect

theorem flag_effect (ib : Nat) (instr : BitVec w) {s s' : State H w} {e : Exception}
    (executed : executeOneInstruction ib instr s = some (e, s')) :
    FlagEffect ib instr s e s' := by
  cases op : Opcode.ofCode (operCode ib (instr.setWidth 64)).toNat with
  | ADD | AND | NOT | LEA =>
    have sets : setsCC ib instr = true := by simp only [setsCC, op]
    have keeps : KeepsFlag ib instr s := by simp only [KeepsFlag, op]
    simp only [executeOneInstruction, op, Option.some.injEq, Prod.mk.injEq] at executed
    obtain ⟨rfl, rfl⟩ := executed
    exact effect_set sets keeps rfl
  | LD | LDR =>
    have sets : setsCC ib instr = true := by simp only [setsCC, op]
    simp only [executeOneInstruction, op, Option.some.injEq] at executed
    have effect := effect_load (s := s) (t := s) sets rfl (by simp only [KeepsFlag, op]; rfl)
    rwa [destination, executed] at effect
  | LDI => exact effect_ldi op executed
  | BR => exact effect_br op executed
  | ST | STR | RTI | JMP =>
    have other : setsCC ib instr = false := by simp only [setsCC, op]
    have keeps : KeepsFlag ib instr s := by simp only [KeepsFlag, op]
    refine effect_kept other (iff_of_true ?_ keeps)
    simp only [executeOneInstruction, op, Option.some.injEq] at executed
    cases executed
    rfl
  | JSR =>
    have other : setsCC ib instr = false := by simp only [setsCC, op]
    refine effect_kept other ?_
    simp only [KeepsFlag, op]
    simp only [executeOneInstruction, op] at executed
    split at executed <;> cases executed <;> exact flag_silent s 7 s.regs.pc
  | STI => exact effect_sti op executed
  | RES => exact effect_res op executed
  | TRAP => exact effect_trap op executed

section cycle
variable {ib : Nat} {t t' : Traced H w} {f : Fetched H w}

/-- One instruction: an instruction that sets the condition code always leaves it
right, and after another one it stays right exactly when `KeepsFlag` says so. -/
theorem right_cycle (ran : cycle ib t f = some t') (right : Right t) {v : BitVec w}
    (last : t.last = some v) : Right t' ↔ KeepsFlag ib f.instr (t.handOver f) := by
  obtain ⟨⟨e, s'⟩, executed, rfl⟩ := Option.map_eq_some_iff.mp ran
  have effect := flag_effect ib f.instr executed
  have flag : (t.handOver f).flag = signFlag v := right v (by rw [last]; rfl)
  rw [FlagEffect] at effect
  by_cases sets : e = .success ∧ setsCC ib f.instr
  · rw [if_pos sets] at effect
    refine iff_of_true ?_ effect.2
    intro u written
    simp only [if_pos sets, Option.mem_some_iff] at written
    exact written ▸ effect.1
  · rw [if_neg sets] at effect
    rw [← effect, flag]
    simp only [Right, if_neg sets, last, Option.mem_some_iff, forall_eq']

theorem right_first (ran : cycle ib t f = some t') (none_yet : t.last = none) : Right t' := by
  obtain ⟨⟨e, s'⟩, executed, rfl⟩ := Option.map_eq_some_iff.mp ran
  have effect := flag_effect ib f.instr executed
  rw [FlagEffect] at effect
  intro u written
  by_cases sets : e = .success ∧ setsCC ib f.instr
  · simp only [if_pos sets, Option.mem_some_iff] at written
    rw [if_pos sets] at effect
    exact written ▸ effect.1
  · simp only [if_neg sets, none_yet, Option.not_mem_none] at written

end cycle

/-- The condition on the steps of a run, which starts to count with the first
instruction that sets the condition code. -/
def Keeps (ib : Nat) (t : Traced H w) (f : Fetched H w) : Prop :=
  t.last.isSome → KeepsFlag ib f.instr (t.handOver f)

theorem right_run {ib : Nat} {t t' : Traced H w} {fs : List (Fetched H w)} (right : Right t)
    (good : Throughout (cycle ib) (Keeps ib) t fs) (ran : run (cycle ib) t fs = some t') :
    Right t' := by
  refine invariant ?_ right good ran
  intro t f t' right keeps stepped
  cases last : t.last with
  | none => exact right_first stepped last
  | some v => exact (right_cycle stepped right last).mpr (keeps (by rw [last]; rfl))

end

/-- In every run whose steps keep the flag, a BR branches on the sign class of the
value last written; and a step that does not keep it leaves the wrong flag behind. -/
theorem branch_tests_last_value {H : Type} {w : Nat} [Host H w] (ib : Nat) :
    (∀ (s : State H w) (fs : List (Fetched H w)) (t : Traced H w) (v : BitVec w),
      Throughout (cycle ib) (Keeps ib) ⟨s, none⟩ fs → run (cycle ib) ⟨s, none⟩ fs = some t →
      t.last = some v → t.state.flag = signFlag v ∧
        ∀ f : Fetched H w, Opcode.ofCode (operCode ib (f.instr.setWidth 64)).toNat = .BR →
          f.instr ≠ 0 → executeOneInstruction ib f.instr (t.handOver f) = some (.success,
            if (signFlag v).bits &&& (regNum1 ib (f.instr.setWidth 64)).toNat ≠ 0 then
              (t.handOver f).setPC (f.pc + (intAfterNum1 ib (f.instr.setWidth 64)).setWidth w)
            else t.handOver f)) ∧
    (∀ (t t' : Traced H w) (f : Fetched H w) (v : BitVec w), Right t → t.last = some v →
      cycle ib t f = some t' → (Right t' ↔ KeepsFlag ib f.instr (t.handOver f))) := by
  constructor
  · intro s fs t v good ran last
    have start : Right (⟨s, none⟩ : Traced H w) := fun _ absent => nomatch absent
    have flag : t.state.flag = signFlag v := right_run start good ran v (by rw [last]; rfl)
    refine ⟨flag, ?_⟩
    intro f branch word
    have flag' : (t.handOver f).flag = signFlag v := flag
    simp only [executeOneInstruction, branch, if_neg word, flag']
    split <;> rfl
  · intro t t' f v right last ran
    exact right_cycle ran right last

/-- R1 = 1, every other register 0, and the pointer x4000 at x3001. -/
def sampleHost : SimpleHost 65535 16 where
  memory a := if a = 0x3001 then 0x4000 else 0
  console := ⟨[], [], []⟩

def sampleState : State (SimpleHost 65535 16) 16 :=
  ⟨⟨fun i => if i = 1 then 1 else 0, 0x3000, 0⟩, sampleHost⟩

/-- `ADD R0, R0, #0` -/
def addZero : Fetched (SimpleHost 65535 16) 16 := ⟨0x1020, 0x3001, sampleHost⟩

/-- `STI R1, #0` -/
def stiOne : Fetched (SimpleHost 65535 16) 16 := ⟨0xb200, 0x3001, sampleHost⟩

/-- `BRz #1` -/
def brZero : Fetched (SimpleHost 65535 16) 16 := ⟨0x0401, 0x3002, sampleHost⟩

theorem branch_tests_last_value_add :
    (∃ t, run (cycle 16) ⟨sampleState, none⟩ [addZero, brZero] = some t ∧
      t.state.flag = signFlag (0 : BitVec 16)) ∧
    ∃ t', cycle 16 ⟨sampleState, some 0⟩ stiOne = some t' ∧
      (Right t' ↔ KeepsFlag 16 stiOne.instr (Traced.handOver ⟨sampleState, some 0⟩ stiOne)) := by
  have branch : Opcode.ofCode (operCode 16 (brZero.instr.setWidth 64)).toNat = .BR := by
    decide +kernel
  have good : Throughout (cycle 16) (Keeps 16) ⟨sampleState, none⟩ [addZero, brZero] := by
    refine ⟨(fun none_yet => nomatch none_yet), fun t _ => ⟨fun _ => ?_, fun _ _ => trivial⟩⟩
    simp only [KeepsFlag, branch]
  have zero : (run (cycle 16) ⟨sampleState, none⟩ [addZero, brZero]).map (·.last) =
      some (some 0) := by
    decide +kernel
  have defined : (cycle 16 ⟨sampleState, some 0⟩ stiOne).isSome := by decide +kernel
  obtain ⟨t, ran, last⟩ := Option.map_eq_some_iff.mp zero
  obtain ⟨t', stepped⟩ := Option.isSome_iff_exists.mp defined
  have start : Right (⟨sampleState, some 0⟩ : Traced (SimpleHost 65535 16) 16) := by
    intro v last
    cases last
    decide
  exact ⟨⟨t, ran, ((branch_tests_last_value 16).1 _ _ t 0 good ran last).1⟩,
    t', stepped, (branch_tests_last_value 16).2 _ t' stiOne 0 start rfl stepped⟩

theorem sti_changes_flag :
    setsCC 16 stiOne.instr = false ∧
      ∃ t, run (cycle 16) ⟨sampleState, none⟩ [addZero, stiOne] = some t ∧
        t.last = some 0 ∧ t.state.flag = .positive ∧ ¬ Right t := by
  have traced : (run (cycle 16) ⟨sampleState, none⟩ [addZero, stiOne]).map
      (fun t => (t.last, t.state.flag)) = some (some 0, .positive) := by
    decide +kernel
  obtain ⟨t, ran, seen⟩ := Option.map_eq_some_iff.mp traced
  obtain ⟨last, flag⟩ := Prod.mk.inj seen
  refine ⟨by decide +kernel, t, ran, last, flag, ?_⟩
  intro right
  have zero : t.state.flag = signFlag 0 := right 0 (by rw [last]; rfl)
  rw [flag] at zero
  exact absurd zero (by decide)

end LC3Tools.ConditionCode
