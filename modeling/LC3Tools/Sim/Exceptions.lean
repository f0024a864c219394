import LC3Tools.Sim.Arithmetic

/-! What an exception leaves behind: the failing instruction, once redirected to the handler,
has changed nothing but the info cell, the program counter and the exception count. -/
namespace LC3Tools.Exceptions
open InstrParser Sim Compose Arithmetic

section
variable {H : Type} {w : Nat} [Host H w]

/-- The two hosts answer every access to the memory alike. -/
structure SameMemory (h h' : H) : Prop where
  read : ∀ address out, Host.read h address out = Host.read h' address out
  writable : ∀ value address, (Host.write h value address).1 = (Host.write h' value address).1

theorem SameMemory.refl (h : H) : SameMemory h h := ⟨fun _ _ => rfl, fun _ _ => rfl⟩

theorem SameMemory.trans {h h' h'' : H} (first : SameMemory h h') (second : SameMemory h' h'') :
    SameMemory h h'' :=
  ⟨fun a out => (first.read a out).trans (second.read a out),
    fun v a => (first.writable v a).trans (second.writable v a)⟩

variable (H) in
/-- A memory of cells beside a console: a failing access changes nothing, a write changes its
cell, and the console has no cells. -/
structure VirtualMemory : Prop where
  failing_read : ∀ (h : H) address out, (Host.read h address out).1 ≠ .success →
    (Host.read h address out).2 = out
  failing_write : ∀ (h : H) value address, (Host.write h value address).1 ≠ .success →
    (Host.write h value address).2 = h
  written : ∀ (h : H) value address, (Host.write h value address).1 = .success →
    ∀ out, Host.read (Host.write h value address).2 address out = (.success, value)
  other : ∀ (h : H) value address cell, cell ≠ address →
    ∀ out, Host.read (Host.write h value address).2 cell out = Host.read h cell out
  getChar : ∀ h : H, SameMemory (Host.getChar h).2 h
  putChar : ∀ (h : H) c, SameMemory (Host.putChar h c) h
  checkKeyboard : ∀ h : H, SameMemory (Host.checkKeyboard h).2 h

/-- The addresses that `MemoryRead` and `MemoryWrite` keep from the memory. -/
def Device (address : BitVec w) : Prop :=
  address = addressKBSR w ∨ address = addressKBDR w ∨ address = addressDSR w ∨
    address = addressDDR w

/-- Nothing but the info cell, the program counter and the count differs after an error. -/
structure Precise (config : ProcessorConfig w) (p p' : Processor H w) : Prop where
  reg : p'.state.regs.reg = p.state.regs.reg
  numCC : p'.state.regs.numCC = p.state.regs.numCC
  cells : ∀ address, address ≠ config.exceptionInfoAddress →
    ∀ out, Host.read p'.state.host address out = Host.read p.state.host address out
  info : ¬ Device config.exceptionInfoAddress →
    (Host.write p.state.host p.state.regs.pc config.exceptionInfoAddress).1 = .success →
    ∀ out, Host.read p'.state.host config.exceptionInfoAddress out = (.success, p.state.regs.pc)
  pc : p'.state.regs.pc = config.exceptionHandlerAddress
  count : p'.exceptionCount = p.exceptionCount + 1

theorem error_of_ne {e : Exception} (error : e = .errorRead ∨ e = .errorWrite) :
    e ≠ .success ∧ e ≠ .stop ∧ e ≠ .rti := by
  rcases error with rfl | rfl <;> decide

omit [Host H w] in
theorem setReg_self (s : State H w) (n : Fin 8) : s.setReg n (s.regs.reg n) = s := by
  have same : (s.regs.set n (s.regs.reg n)).reg = s.regs.reg := by
    funext i
    rw [set_reg]
    split
    · next equal => rw [equal]
    · rfl
  change State.mk { s.regs with reg := (s.regs.set n (s.regs.reg n)).reg } s.host = s
  rw [same]

variable (memory : VirtualMemory H)
include memory

theorem memoryRead_failed {h : H} {out address : BitVec w}
    (failed : (memoryRead h out address).1 ≠ .success) :
    (memoryRead h out address).2 = (out, h) := by
  by_cases status : address = addressKBSR w
  · simp [memoryRead, status] at failed
  · by_cases data : address = addressKBDR w
    · cases pressed : (Host.checkKeyboard h).1 <;>
        simp [memoryRead, if_neg status, if_pos data, pressed] at failed
    · by_cases ready : address = addressDSR w
      · simp [memoryRead, if_neg status, if_neg data, if_pos ready] at failed
      · by_cases display : address = addressDDR w
        · simp [memoryRead, if_neg status, if_neg data, if_neg ready, if_pos display] at failed
        · simp only [memoryRead, if_neg status, if_neg data, if_neg ready,
            if_neg display] at failed ⊢
          rw [memory.failing_read h address out failed]

theorem memoryRead_same (h : H) (out address : BitVec w) :
    SameMemory (memoryRead h out address).2.2 h := by
  unfold memoryRead
  split
  · exact memory.checkKeyboard h
  · split
    · by_cases pressed : (Host.checkKeyboard h).1
      · simp only [if_pos pressed]
        exact (memory.getChar _).trans (memory.checkKeyboard h)
      · simp only [if_neg pressed]
        exact memory.checkKeyboard h
    · split
      · exact .refl h
      · split
        · exact .refl h
        · exact .refl h

theorem memoryWrite_failed {h : H} {value address : BitVec w}
    (failed : (memoryWrite h value address).1 ≠ .success) :
    (memoryWrite h value address).2 = h := by
  by_cases silent : address = addressKBSR w ∨ address = addressKBDR w ∨ address = addressDSR w
  · simp only [memoryWrite, if_pos silent, ne_eq, not_true_eq_false] at failed
  · by_cases display : address = addressDDR w
    · simp only [memoryWrite, if_neg silent, if_pos display, ne_eq, not_true_eq_false] at failed
    · simp only [memoryWrite, if_neg silent, if_neg display] at failed ⊢
      exact memory.failing_write h value address failed

theorem load_failed {s s' : State H w} {n : Fin 8} {address : BitVec w} {e : Exception}
    (ran : s.load n address = (e, s')) (failed : e ≠ .success) : s' = s := by
  obtain ⟨⟨result, out, h⟩, read⟩ : ∃ r, memoryRead s.host (s.regs.reg n) address = r := ⟨_, rfl⟩
  by_cases success : result = .success
  · simp only [State.load, State.readReg, read, if_pos success, Prod.mk.injEq] at ran
    exact absurd ran.1.symm failed
  · have kept := memoryRead_failed memory
      (show (memoryRead s.host (s.regs.reg n) address).1 ≠ .success by
      rw [read]
      exact success)
    rw [read, Prod.mk.injEq] at kept
    obtain ⟨rfl, rfl⟩ := kept
    simp only [State.load, State.readReg, read, if_neg success, Prod.mk.injEq] at ran
    rw [← ran.2, setReg_self]
    rfl

theorem store_failed {s s' : State H w} {n : Fin 8} {address : BitVec w} {e : Exception}
    (ran : s.store n address = (e, s')) (failed : e ≠ .success) : s' = s := by
  obtain ⟨⟨result, h⟩, wrote⟩ : ∃ r, memoryWrite s.host (s.regs.reg n) address = r := ⟨_, rfl⟩
  simp only [State.store, wrote, Prod.mk.injEq] at ran
  by_cases success : result = .success
  · rw [if_pos success] at ran
    exact absurd ran.1.symm failed
  · have kept := memoryWrite_failed memory
      (show (memoryWrite s.host (s.regs.reg n) address).1 ≠ .success by
      rw [wrote]
      exact success)
    rw [wrote] at kept
    rw [← ran.2, show h = s.host from kept]
    rfl

/-- The instruction is a TRAP, whose return address goes to R7 before the vector is read. -/
def IsTrap (ib : Nat) (instr : BitVec w) : Prop :=
  Opcode.ofCode (operCode ib (instr.setWidth 64)).toNat = .TRAP

theorem error_step {ib : Nat} {instr : BitVec w} {s s' : State H w} {e : Exception}
    (ran : executeOneInstruction ib instr s = some (e, s'))
    (error : e = .errorRead ∨ e = .errorWrite) :
    SameMemory s'.host s.host ∧ s'.regs.numCC = s.regs.numCC ∧
      (IsTrap ib instr → s'.regs.reg = (s.regs.set 7 s.regs.pc).reg) ∧
      (¬ IsTrap ib instr → s'.regs.reg = s.regs.reg) := by
  obtain ⟨other, stopped, returned⟩ := error_of_ne error
  have unchanged {t : State H w} (same : s' = t) (host : SameMemory t.host s.host)
      (regs : t.regs = s.regs) (plain : ¬ IsTrap ib instr) :
      SameMemory s'.host s.host ∧ s'.regs.numCC = s.regs.numCC ∧
        (IsTrap ib instr → s'.regs.reg = (s.regs.set 7 s.regs.pc).reg) ∧
        (¬ IsTrap ib instr → s'.regs.reg = s.regs.reg) := by
    rw [same, regs]
    exact ⟨host, rfl, fun trap => absurd trap plain, fun _ => rfl⟩
  have pointer := memoryRead_same memory s.host 0
    (s.regs.pc + (intAfterNum1 ib (instr.setWidth 64)).setWidth w)
  obtain ⟨⟨access, address, h⟩, pointed⟩ : ∃ r, memoryRead s.host 0
    (s.regs.pc + (intAfterNum1 ib (instr.setWidth 64)).setWidth w) = r := ⟨_, rfl⟩
  rw [pointed] at pointer
  cases code : Opcode.ofCode (operCode ib (instr.setWidth 64)).toNat with
  | BR =>
    simp only [executeOneInstruction, code] at ran
    split at ran
    · cases ran
      exact absurd rfl stopped
    · split at ran <;> cases ran <;> exact absurd rfl other
  | ADD | AND | NOT | JMP | LEA =>
    simp only [executeOneInstruction, code] at ran
    cases ran
    exact absurd rfl other
  | JSR =>
    simp only [executeOneInstruction, code] at ran
    split at ran <;> cases ran <;> exact absurd rfl other
  | RES =>
    simp only [executeOneInstruction, code] at ran
    split at ran
    · cases ran
      exact absurd rfl other
    · obtain ⟨v, -, same⟩ := Option.map_eq_some_iff.mp ran
      cases same
      exact absurd rfl other
  | RTI =>
    simp only [executeOneInstruction, code] at ran
    split at ran
    · cases ran
      exact absurd rfl returned
    · cases ran
      exact absurd rfl other
  | LD | LDR =>
    have plain : ¬ IsTrap ib instr := by simp [IsTrap, code]
    simp only [executeOneInstruction, code, Option.some.injEq] at ran
    exact unchanged (load_failed memory ran other) (.refl _) rfl plain
  | ST | STR =>
    have plain : ¬ IsTrap ib instr := by simp [IsTrap, code]
    simp only [executeOneInstruction, code, Option.some.injEq] at ran
    exact unchanged (store_failed memory ran other) (.refl _) rfl plain
  | LDI =>
    have plain : ¬ IsTrap ib instr := by simp [IsTrap, code]
    simp only [executeOneInstruction, code, pointed] at ran
    split at ran
    · cases ran
      exact unchanged rfl pointer rfl plain
    · exact unchanged (load_failed memory (Option.some.inj ran) other) pointer rfl plain
  | STI =>
    have plain : ¬ IsTrap ib instr := by simp [IsTrap, code]
    simp only [executeOneInstruction, code, pointed] at ran
    split at ran
    · cases ran
      exact unchanged rfl pointer rfl plain
    · generalize stored : (s.setHost h).store (regIndex (regNum1 ib (instr.setWidth 64))) address =
        result at ran
      obtain ⟨e₁, s₁⟩ := result
      simp only [Option.some.injEq, Prod.mk.injEq] at ran
      obtain ⟨rfl, rfl⟩ := ran
      have kept : s₁ = s.setHost h := store_failed memory stored other
      exact unchanged ((if_neg other).trans kept) pointer rfl plain
  | TRAP =>
    have kept := memoryRead_same memory s.host s.regs.pc
      ((trap ib (instr.setWidth 64)).setWidth w)
    simp only [executeOneInstruction, code] at ran
    generalize memoryRead s.host s.regs.pc ((trap ib (instr.setWidth 64)).setWidth w) = vector
      at ran kept
    split at ran
    · cases ran
      exact absurd rfl other
    · simp only [Option.some.injEq, Prod.mk.injEq] at ran
      obtain ⟨-, rfl⟩ := ran
      exact ⟨kept, rfl, fun _ => rfl, fun plain => absurd code plain⟩

theorem handled (config : ProcessorConfig w) (address : BitVec w) {e : Exception}
    (p : Processor H w) (enabled : config.exceptionMask &&& BitVec.ofNat w e.code ≠ 0) :
    ∃ h, handleException config address e p =
        ⟨(p.state.setHost h).setPC config.exceptionHandlerAddress, p.exceptionCount + 1⟩ ∧
      (∀ cell, cell ≠ config.exceptionInfoAddress →
        ∀ out, Host.read h cell out = Host.read p.state.host cell out) ∧
      (¬ Device config.exceptionInfoAddress →
        (Host.write p.state.host address config.exceptionInfoAddress).1 = .success →
        ∀ out, Host.read h config.exceptionInfoAddress out = (.success, address)) := by
  refine ⟨(memoryWrite p.state.host address config.exceptionInfoAddress).2, ?_, ?_, ?_⟩
  · simp only [handleException, if_neg enabled]
  · intro cell apart out
    unfold memoryWrite
    split
    · rfl
    · split
      · exact (memory.putChar _ _).read cell out
      · exact memory.other _ _ _ cell apart out
  · intro ordinary writable out
    have silent : ¬ (config.exceptionInfoAddress = addressKBSR w ∨
        config.exceptionInfoAddress = addressKBDR w ∨
        config.exceptionInfoAddress = addressDSR w) := by
      rintro (status | data | ready)
      · exact ordinary (.inl status)
      · exact ordinary (.inr (.inl data))
      · exact ordinary (.inr (.inr (.inl ready)))
    have display : config.exceptionInfoAddress ≠ addressDDR w :=
      fun device => ordinary (.inr (.inr (.inr device)))
    simp only [memoryWrite, if_neg silent, if_neg display]
    exact memory.written _ _ _ writable out

/-- The words of TRAP that reach for a vector find R7 without the return address. -/
def SpoilsR7 (ib : Nat) (p : Processor H w) : Prop :=
  ∃ instr s, fetched p = some (instr, s) ∧ IsTrap ib instr ∧
    p.state.regs.reg 7 ≠ p.state.regs.pc + 1

omit memory in
/-- For every environment with such a memory, every configuration and every processor: an
iteration that meets an error whose type is enabled is precise if and only if it is not a TRAP
that failed to read its vector with another word in R7 than its return address. -/
theorem precise_iff (ib : Nat) (config : ProcessorConfig w) (memory : VirtualMemory H)
    {p p' : Processor H w} {e : Exception} (ran : iteration ib config p = some (e, p'))
    (error : e = .errorRead ∨ e = .errorWrite)
    (enabled : config.exceptionMask &&& BitVec.ofNat w e.code ≠ 0) :
    Precise config p p' ↔ ¬ SpoilsR7 ib p := by
  obtain ⟨other, stopped, returned⟩ := error_of_ne error
  -- the state that the handler is given, with the memory of the start
  obtain ⟨q, same, host, numCC, count, regs⟩ :
    ∃ q, p' = handleException config p.state.regs.pc e q ∧
      SameMemory q.state.host p.state.host ∧ q.state.regs.numCC = p.state.regs.numCC ∧
      q.exceptionCount = p.exceptionCount ∧
      (q.state.regs.reg = p.state.regs.reg ↔ ¬ SpoilsR7 ib p) := by
    have fetch := memoryRead_same memory p.state.host 0 p.state.regs.pc
    by_cases read : (memoryRead p.state.host 0 p.state.regs.pc).1 = .success
    · simp only [iteration, read, ne_eq, not_true_eq_false, if_false, Option.map_eq_some_iff] at ran
      obtain ⟨⟨e₁, s'⟩, executed, result⟩ := ran
      have next : fetched p = some ((memoryRead p.state.host 0 p.state.regs.pc).2.1,
          (p.state.setHost (memoryRead p.state.host 0 p.state.regs.pc).2.2).setPC
            (p.state.regs.pc + 1)) := by
        simp only [fetched, read, if_true]
      by_cases passed : e₁ = .success ∨ e₁ = .stop ∨ e₁ = .rti
      · simp only [if_pos passed, Prod.mk.injEq] at result
        rw [result.1] at passed
        rcases passed with success | stop | rti
        · exact absurd success other
        · exact absurd stop stopped
        · exact absurd rti returned
      · simp only [if_neg passed, Prod.mk.injEq] at result
        obtain ⟨rfl, rfl⟩ := result
        obtain ⟨host, numCC, trap, plain⟩ := error_step memory executed error
        refine ⟨{ p with state := s' }, rfl, host.trans fetch, numCC, rfl, ?_⟩
        by_cases isTrap : IsTrap ib (memoryRead p.state.host 0 p.state.regs.pc).2.1
        · have stored := trap isTrap
          have atR7 : s'.regs.reg 7 = p.state.regs.pc + 1 := by
            rw [stored, set_reg_same]
            rfl
          constructor
          · rintro kept ⟨instr, s, -, -, moved⟩
            rw [← kept] at moved
            exact moved atR7
          · intro kept
            have there : p.state.regs.reg 7 = p.state.regs.pc + 1 := by
              by_contra moved
              exact kept ⟨_, _, next, isTrap, moved⟩
            change s'.regs.reg = _
            rw [stored]
            funext n
            rw [set_reg]
            split
            · next equal => rw [equal, there]; rfl
            · rfl
        · constructor
          · rintro - ⟨instr, s, equal, vector, -⟩
            rw [next, Option.some.injEq, Prod.mk.injEq] at equal
            rw [← equal.1] at vector
            exact isTrap vector
          · exact fun _ => plain isTrap
    · simp only [iteration, read, ne_eq, not_false_eq_true, if_true, Option.some.injEq,
        Prod.mk.injEq] at ran
      obtain ⟨rfl, rfl⟩ := ran
      refine ⟨_, rfl, fetch, rfl, rfl, ?_⟩
      have nothing : fetched p = none := by simp only [fetched, read, if_false]
      constructor
      · rintro - ⟨instr, s, equal, -⟩
        rw [nothing] at equal
        cases equal
      · exact fun _ => rfl
  obtain ⟨h, after, cells, info⟩ := handled memory config p.state.regs.pc q enabled
  rw [← regs, same, after]
  constructor
  · intro precise
    exact precise.reg
  · intro kept
    refine ⟨kept, numCC, ?_, ?_, rfl, ?_⟩
    · intro cell apart out
      rw [← host.read]
      exact cells cell apart out
    · intro ordinary writable out
      rw [← host.writable] at writable
      exact info ordinary writable out
    · rw [← count]

end

section
variable {maxMemoryAddress w : Nat}

theorem simple_read (h : SimpleHost maxMemoryAddress w) (address out : BitVec w) :
    Host.read h address out = if address.toNat < maxMemoryAddress then (.success, h.memory address)
      else (.errorAddressOutOfRange, out) := rfl

theorem simple_write (h : SimpleHost maxMemoryAddress w) (value address : BitVec w) :
    Host.write h value address = if address.toNat < maxMemoryAddress then
      (.success, { h with memory := fun a => if a = address then value else h.memory a })
      else (.errorAddressOutOfRange, h) := rfl

theorem same_of_memory {h h' : SimpleHost maxMemoryAddress w} (same : h.memory = h'.memory) :
    SameMemory h h' := by
  constructor
  · intro address out
    rw [simple_read, simple_read, same]
  · intro value address
    rw [simple_write, simple_write]
    split <;> rfl

theorem simpleHost_memory : VirtualMemory (SimpleHost maxMemoryAddress w) where
  failing_read h address out failed := by
    rw [simple_read] at failed ⊢
    split
    · next inside => exact absurd (by rw [if_pos inside]) failed
    · rfl
  failing_write h value address failed := by
    rw [simple_write] at failed ⊢
    split
    · next inside => exact absurd (by rw [if_pos inside]) failed
    · rfl
  written h value address success out := by
    rw [simple_write] at success ⊢
    by_cases inside : address.toNat < maxMemoryAddress
    · simp only [if_pos inside, simple_read, if_true]
    · simp only [if_neg inside, reduceCtorEq] at success
  other h value address cell apart out := by
    rw [simple_write]
    by_cases inside : address.toNat < maxMemoryAddress
    · simp only [if_pos inside, simple_read, if_neg apart]
    · simp only [if_neg inside]
  getChar _ := same_of_memory rfl
  putChar _ _ := same_of_memory rfl
  checkKeyboard _ := same_of_memory rfl

end

/-- The errors of reads are enabled, and R1 points to the only address out of range. -/
def handlerConfig : ProcessorConfig 16 := ⟨0x200, 0xfffd, 0x20⟩

def failingProcessor (word : BitVec 16) : Processor (SimpleHost 65535 16) 16 :=
  ⟨⟨⟨fun i => if i = 1 then 0xffff else 0, 0x3000, 0⟩,
    ⟨fun a => if a = 0x3000 then word else 0, ⟨[], [], []⟩⟩⟩, 0⟩

theorem precise_ldr : ∃ p', iteration 16 handlerConfig (failingProcessor 0x6040) =
    some (.errorRead, p') ∧ Precise handlerConfig (failingProcessor 0x6040) p' := by
  have error : (iteration 16 handlerConfig (failingProcessor 0x6040)).map (·.1) =
      some .errorRead := by
    decide +kernel
  obtain ⟨⟨e, p'⟩, ran, rfl⟩ := Option.map_eq_some_iff.mp error
  refine ⟨p', ran, (precise_iff 16 handlerConfig simpleHost_memory ran (.inl rfl)
    (by decide)).mpr ?_⟩
  rintro ⟨instr, s, next, trap, -⟩
  have word : fetched (failingProcessor 0x6040) =
      some (0x6040, (failingProcessor 0x6040).state.setPC 0x3001) := rfl
  rw [word] at next
  cases next
  exact absurd trap (by unfold IsTrap; decide +kernel)

theorem trap_spoils : ∃ p', iteration 16 handlerConfig (failingProcessor 0xffff) =
    some (.errorRead, p') ∧ ¬ Precise handlerConfig (failingProcessor 0xffff) p' := by
  have seen : (iteration 16 handlerConfig (failingProcessor 0xffff)).map
      (fun (e, p') => (e, p'.state.regs.reg 7)) = some (.errorRead, 0x3001) := by
    decide +kernel
  obtain ⟨⟨e, p'⟩, ran, same⟩ := Option.map_eq_some_iff.mp seen
  obtain ⟨rfl, value⟩ := Prod.mk.inj same
  refine ⟨p', ran, fun precise => ?_⟩
  have kept : p'.state.regs.reg 7 = 0 := congrFun precise.reg 7
  rw [kept] at value
  exact absurd value (by decide)

end LC3Tools.Exceptions
