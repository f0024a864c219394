import LC3Tools.Sim.Executer

/-! `Processor::Run`: fetch, execute, and redirect to the exception handler. -/
namespace LC3Tools.Sim

/-- The values of `Exception::Type`, which the mask of the configuration selects. -/
def Exception.code : Exception → Nat
  | .success => 0x00
  | .stop => 0x01
  | .rti => 0x02
  | .notImplemented => 0x10
  | .errorRead => 0x20
  | .errorWrite => 0x40

structure ProcessorConfig (w : Nat) where
  exceptionHandlerAddress : BitVec w
  exceptionInfoAddress : BitVec w
  exceptionMask : BitVec w

/-- The processor's state together with the mutable `m_ExceptionCount`. -/
structure Processor (H : Type) (w : Nat) where
  state : State H w
  exceptionCount : BitVec w

inductive RunResult where
  | globalError | stop | rtiStop
  deriving DecidableEq, Repr

section
variable {H : Type} {w : Nat} [Host H w]

/-- From the error branch of the loop body on. -/
def handleException (config : ProcessorConfig w) (address : BitVec w) (e : Exception)
    (p : Processor H w) : Processor H w :=
  let p' := { p with exceptionCount := p.exceptionCount + 1 }
  if config.exceptionMask &&& BitVec.ofNat w e.code = 0 then p'
  else
    let (_, h) := memoryWrite p.state.host address config.exceptionInfoAddress
    { p' with state := (p.state.setHost h).setPC config.exceptionHandlerAddress }

/-- One iteration of the loop. The loop is left when it returns stop or rti. -/
def iteration (ib : Nat) (config : ProcessorConfig w) (p : Processor H w) :
    Option (Exception × Processor H w) :=
  let address := p.state.regs.pc
  let (result, instruction, h) := memoryRead p.state.host 0 address
  let fetched := p.state.setHost h
  if result ≠ .success then
    some (.errorRead, handleException config address .errorRead { p with state := fetched })
  else
    (executeOneInstruction ib instruction (fetched.setPC (address + 1))).map fun (e, s') =>
      if e = .success ∨ e = .stop ∨ e = .rti then (e, { p with state := s' })
      else (e, handleException config address e { p with state := s' })

/-- The loop with the iterations that are left, the count so far and the last exception. -/
def runLoop (ib : Nat) (config : ProcessorConfig w) :
    Nat → Nat → Exception → Processor H w → Option (Exception × Nat × Processor H w)
  | 0, count, e, p => some (e, count, p)
  | left + 1, count, _, p =>
    (iteration ib config p).bind fun (e, p') =>
      if e = .stop ∨ e = .rti then some (e, count, p')
      else runLoop ib config left (count + 1) e p'

def RunResult.ofException : Exception → RunResult
  | .stop => .stop
  | .rti => .rtiStop
  | _ => .globalError

/-- `Processor::Run` for a bound below the largest `unsigned int`. -/
def Processor.run (ib : Nat) (config : ProcessorConfig w) (maxExecuteInstructCount : Nat)
    (p : Processor H w) : Option (RunResult × Nat × Processor H w) :=
  (runLoop ib config maxExecuteInstructCount 1 .success p).map fun (e, count, p') =>
    (RunResult.ofException e, count, p')

end

end LC3Tools.Sim
