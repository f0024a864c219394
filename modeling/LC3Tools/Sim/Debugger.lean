import LC3Tools.Sim.Lc3Sim

/-! The commands of `lc3sim.c` that run the machine and look at it, outside of the graphical mode
and with `keep_input_on_stop`. Where the input is not flushed in front of them either, the machine
executes the instructions that it would have executed without them, whatever they are. -/
namespace LC3Tools.Lc3Sim
open Lc3Def

/-- The settings by which a run is stopped. -/
structure Stops where
  breakpoints : BitVec 16 → Bool
  sysBptAddr : BitVec 32
  finishDepth : Int
  shouldHalt : Bool

def Sim.under (s : Sim) (x : Stops) : Sim :=
  { s with settings := { s.settings with
      breakpoints := x.breakpoints
      sysBptAddr := x.sysBptAddr
      finishDepth := x.finishDepth
      shouldHalt := x.shouldHalt } }

/-- Nothing stops the machine. -/
def free : Stops := ⟨fun _ => false, -1, 0, false⟩

/-- The loop of `run_until_stopped`. The signal of ^C comes in front of the instruction of that
number. -/
def runLoop : Nat → Sim → Except Stop Sim
  | 0, s => .ok { s with settings := { s.settings with shouldHalt := true } }
  | signal + 1, s =>
    if s.settings.shouldHalt then .ok s
    else do
      let (more, s) ← executeInstruction s
      if more then runLoop signal s else .ok s

/-- `print_registers`, which reads the word at the program counter to disassemble it. -/
def showState (s : Sim) : Except Stop Sim := (readMemory s.machine.pc s).map (·.2)

def runUntilStopped (signal : Nat) (s : Sim) : Except Stop Sim := do
  let s ← runLoop signal { s with settings := { s.settings with shouldHalt := false } }
  showState { s with settings := { s.settings with sysBptAddr := -1, finishDepth := 0 } }

/-- The loop of `flush_console_input`, in which `poll` finds input so many times at the most. -/
def flushLoop : Nat → Sim → Except Stop Sim
  | 0, _ => .error .flushing
  | polls + 1, s =>
    let (ready, s) := s.nextPoll
    if ready then flushLoop polls { s with console :=
      { s.console with input := s.console.input.tail } } else .ok s

/-- `flush_console_input`, if `flush_on_start` is set and no script is read. -/
def flushConsoleInput (flush : Bool) (polls : Nat) (s : Sim) : Except Stop Sim :=
  if flush then flushLoop polls s else .ok s

/-- The addresses that `disassemble` goes through, around the end of the memory. -/
def span (addrS addrE : BitVec 16) : List (BitVec 16) :=
  addrS :: if addrS + 1 = addrE then [] else span (addrS + 1) addrE
termination_by (addrE - addrS - 1).toNat
decreasing_by bv_omega

/-- What is disassembled is read. -/
def disassemble (addrs : List (BitVec 16)) (s : Sim) : Except Stop Sim :=
  addrs.foldlM (fun s addr => (readMemory (addr.setWidth 32) s).map (·.2)) s

inductive Command where
  | breakSet (addr : BitVec 16)
  | breakClear (addr : BitVec 16)
  | breakClearAll
  | continue (signal : Nat)
  | finish (signal : Nat)
  | next (signal : Nat)
  | step
  | list (addrS addrE : BitVec 16)
  | translate (addr : BitVec 16)
  | printregs

/-- The functions `cmd_...`, whose arguments have been read. -/
def command (flush : Bool) (polls : Nat) (s : Sim) : Command → Except Stop Sim
  | .breakSet addr =>
    .ok { s with settings :=
      { s.settings with breakpoints := fun a => a = addr || s.settings.breakpoints a } }
  | .breakClear addr =>
    .ok { s with settings :=
      { s.settings with breakpoints := fun a => a ≠ addr && s.settings.breakpoints a } }
  | .breakClearAll => .ok { s with settings := { s.settings with breakpoints := fun _ => false } }
  | .continue signal => do
    let s ← flushConsoleInput flush polls s
    runUntilStopped signal s
  | .finish signal => do
    let s ← flushConsoleInput flush polls s
    runUntilStopped signal { s with settings := { s.settings with finishDepth := 1 } }
  | .next signal => do
    let nextPC := (s.machine.pc + 1) &&& 0xFFFF
    let s ← flushConsoleInput flush polls s
    let (more, s) ← executeInstruction s
    if more ∧ s.lastFlags &&& subroutineFlag ≠ 0 then
      runUntilStopped signal { s with settings := { s.settings with sysBptAddr := nextPC } }
    else showState s
  | .step => do
    let s ← flushConsoleInput flush polls s
    let (_, s) ← executeInstruction s
    showState s
  | .list addrS addrE => disassemble (span addrS addrE) s
  | .translate addr => disassemble [addr] s
  | .printregs => showState s

/-- The machine without commands: one instruction after the other. -/
def stream : Nat → Sim → Except Stop Sim
  | 0, s => .ok s
  | n + 1, s => do
    let (_, s) ← executeInstruction (s.under free)
    stream n s

/-- An instruction up to the label `executed`, and whether it is legal. -/
def attempt (s : Sim) : Except Stop (Bool × Sim) := do
  let s ← trace s
  let (word, s) ← readMemory s.machine.pc s
  let s : Sim := { s with machine :=
    { s.machine with ir := word, pc := (s.machine.pc + 1) &&& 0xFFFF } }
  match decode s.machine.ir with
  | some inst => (code inst { s with lastFlags := flags inst }).map fun s => (true, s)
  | none => .ok (false, s.setPC ((s.machine.pc - 1) &&& 0xFFFF))

/-- The same machine, devices and console, whatever stops a run. -/
def Alike (s t : Sim) : Prop := s.under free = t.under free

/-- Reading these addresses may change the state of a device. -/
def Device (addr : BitVec 32) : Prop := addr = 0xFE00 ∨ addr = 0xFE02 ∨ addr = 0xFE04

instance (addr : BitVec 32) : Decidable (Device addr) := inferInstanceAs (Decidable (_ ∨ _ ∨ _))

/-- Both end in the same way, with related results. -/
def Both {α β : Type} (R : α → β → Prop) : Except Stop α → Except Stop β → Prop
  | .ok a, .ok b => R a b
  | .error stop, .error stop' => stop = stop'
  | _, _ => False

section
variable {α β γ δ : Type} {R R' : α → β → Prop} {Q : γ → δ → Prop} {x : Except Stop α}
  {y : Except Stop β}

theorem Both.bind {f : α → Except Stop γ} {g : β → Except Stop δ} (first : Both R x y)
    (next : ∀ a b, R a b → Both Q (f a) (g b)) : Both Q (x >>= f) (y >>= g) := by
  cases x with
  | ok a =>
    cases y with
    | ok b => exact next a b first
    | error stop => exact first.elim
  | error stop =>
    cases y with
    | ok b => exact first.elim
    | error stop' => exact first

theorem Both.map {f : α → γ} {g : β → δ} (first : Both R x y)
    (next : ∀ a b, R a b → Q (f a) (g b)) :
    Both Q (x.map f) (y.map g) := by
  cases x <;> cases y
  · exact first
  · exact first.elim
  · exact first.elim
  · exact next _ _ first

theorem Both.mono (first : Both R x y) (weaker : ∀ a b, R a b → R' a b) : Both R' x y := by
  cases x <;> cases y
  · exact first
  · exact first.elim
  · exact first.elim
  · exact weaker _ _ first

theorem Both.join {S : α → γ → Prop} {z : Except Stop γ} (left : Both R x y) (right : Both S x z) :
    Both (fun b c => ∃ a, R a b ∧ S a c) y z := by
  cases x <;> cases y <;> cases z
  · exact left.symm.trans right
  all_goals first | exact left.elim | exact right.elim | exact ⟨_, left, right⟩

theorem Both.error {stop : Stop} (both : Both R (.error stop) y) : y = .error stop := by
  cases y with
  | ok b => exact both.elim
  | error stop' => exact congrArg _ (Eq.symm both)

theorem Both.ok {a : α} (both : Both R (.ok a) y) : ∃ b, y = .ok b ∧ R a b := by
  cases y with
  | ok b => exact ⟨b, rfl, both⟩
  | error stop => exact both.elim

end

section
variable {s t u : Sim} {x : Stops} {addr value : BitVec 32}

theorem Alike.refl (s : Sim) : Alike s s := rfl
theorem Alike.symm (alike : Alike s t) : Alike t s := Eq.symm alike
theorem Alike.trans (first : Alike s t) (second : Alike t u) : Alike s u := Eq.trans first second

theorem alike_iff : Alike s t ↔ ∃ x, t = s.under x := by
  constructor
  · intro alike
    let own : Stops := ⟨t.settings.breakpoints, t.settings.sysBptAddr, t.settings.finishDepth,
      t.settings.shouldHalt⟩
    have same : (t.under free).under own = (s.under free).under own :=
      congrArg (fun u : Sim => u.under own) alike.symm
    exact ⟨own, same⟩
  · rintro ⟨x, rfl⟩
    rfl

theorem Alike.machine (alike : Alike s t) : t.machine = s.machine := by
  obtain ⟨x, rfl⟩ := alike_iff.mp alike
  rfl

/-- The same but for the settings, which the second state has from outside; only the machine halts
itself in both. -/
def Tracks (x : Stops) (s t : Sim) : Prop :=
  t = s.under { x with shouldHalt := x.shouldHalt || s.settings.shouldHalt }

theorem Tracks.alike (tracks : Tracks x s t) : Alike s t := alike_iff.mpr ⟨_, tracks⟩

theorem tracks_free (s : Sim) (x : Stops) : Tracks x (s.under free) (s.under x) := by
  unfold Tracks
  rw [show (s.under free).settings.shouldHalt = false from rfl, Bool.or_false]
  rfl

/-! What the machine does does not depend on what stops it. -/

theorem deviceReady_under :
    (s.under x).deviceReady = (s.deviceReady.1, s.deviceReady.2.under x) := by
  unfold Sim.deviceReady
  change (if !s.settings.randDevice then _ else _) = _
  split <;> rfl

theorem readKBSR_under : readKBSR (s.under x) = ((readKBSR s).1, (readKBSR s).2.under x) := by
  cases last : s.lastKBSRRead with
  | true => simp only [readKBSR, Sim.under, last, if_true]
  | false =>
    cases ready : s.console.poll 0 with
    | false =>
      simp only [readKBSR, Sim.under, Sim.nextPoll, last, ready, Bool.false_eq_true, if_false]
    | true =>
      have device : (s.nextPoll.2.under x).deviceReady =
          (s.nextPoll.2.deviceReady.1, s.nextPoll.2.deviceReady.2.under x) := deviceReady_under
      have polled : (s.under x).nextPoll = (true, s.nextPoll.2.under x) := Prod.ext ready rfl
      have polled' : s.nextPoll = (true, s.nextPoll.2) := Prod.ext ready rfl
      have last' : (s.under x).lastKBSRRead = false := last
      simp only [readKBSR, last, last', Bool.false_eq_true, if_false]
      rw [polled, polled']
      simp only [if_true, device]
      rfl

theorem readDSR_under : readDSR (s.under x) = ((readDSR s).1, (readDSR s).2.under x) := by
  cases last : s.lastDSRRead with
  | true => simp only [readDSR, Sim.under, last, if_true]
  | false =>
    have last' : (s.under x).lastDSRRead = false := last
    simp only [readDSR, last, last', Bool.false_eq_true, if_false, deviceReady_under]
    rfl

theorem readKBDR_under : readKBDR (s.under x) = (readKBDR s).map fun r => (r.1, r.2.under x) := by
  have console : (s.under x).console = s.console := rfl
  have last' : (s.under x).lastKBSRRead = s.lastKBSRRead := rfl
  cases last : s.lastKBSRRead with
  | false =>
    rw [last] at last'
    simp only [readKBDR, last, last', Bool.false_eq_true, if_false]
    rfl
  | true =>
    rw [last] at last'
    cases input : s.console.input <;> simp only [readKBDR, last, last', if_true, console,
      input] <;> rfl

theorem readMemory_under :
    readMemory addr (s.under x) = (readMemory addr s).map fun r => (r.1, r.2.under x) := by
  unfold readMemory
  split
  · rw [readKBSR_under]
    rfl
  split
  · exact readKBDR_under
  split
  · rw [readDSR_under]
    rfl
  split
  · rfl
  split
  · rfl
  · cases index addr <;> rfl

theorem deviceReady_settings (s : Sim) : s.deviceReady.2.settings = s.settings := by
  unfold Sim.deviceReady
  split <;> rfl

theorem readKBSR_settings (s : Sim) : (readKBSR s).2.settings = s.settings := by
  unfold readKBSR
  dsimp only
  split
  · rfl
  · split
    · exact deviceReady_settings s.nextPoll.2
    · rfl

theorem readDSR_settings (s : Sim) : (readDSR s).2.settings = s.settings := by
  unfold readDSR
  dsimp only
  split
  · rfl
  · exact deviceReady_settings s

theorem readMemory_settings {v : BitVec 32} (read : readMemory addr s = .ok (v, t)) :
    t.settings = s.settings := by
  unfold readMemory at read
  split at read
  · cases read
    exact readKBSR_settings s
  split at read
  · unfold readKBDR at read
    split at read
    · split at read
      · cases read
      · cases read
        rfl
    · cases read
      rfl
  split at read
  · cases read
    exact readDSR_settings s
  split at read
  · cases read
    rfl
  split at read
  · cases read
    rfl
  · cases found : index addr with
    | error stop =>
      rw [found] at read
      cases read
    | ok a =>
      rw [found] at read
      cases read
      rfl

theorem readMemory_tracks (tracks : Tracks x s t) :
    Both (fun p q => p.1 = q.1 ∧ Tracks x p.2 q.2) (readMemory addr s) (readMemory addr t) := by
  subst tracks
  rw [readMemory_under]
  cases read : readMemory addr s with
  | ok p =>
    refine ⟨rfl, ?_⟩
    unfold Tracks
    rw [readMemory_settings read]
  | error stop => exact rfl

theorem writeMemory_tracks (tracks : Tracks x s t) :
    Both (Tracks x) (writeMemory addr value s) (writeMemory addr value t) := by
  subst tracks
  unfold writeMemory
  split
  · exact rfl
  split
  · change Both (Tracks x) _ (if s.lastDSRRead = false then _ else _)
    split <;> exact rfl
  split
  · split
    · exact congrArg (fun h => Sim.under _ { x with shouldHalt := h }) (Bool.or_true _).symm
    · exact rfl
  · cases index addr with
    | error stop => exact rfl
    | ok a =>
      change Both (Tracks x) (if value ≠ s.machine.memory a then _ else _)
        (if value ≠ s.machine.memory a then _ else _)
      split <;> exact rfl

theorem load_tracks (tracks : Tracks x s t) :
    Both (Tracks x) (readMemory addr s >>= fun (v, u) => .ok (u.result v))
    (readMemory addr t >>= fun (v, u) => .ok (u.result v)) := by
  refine (readMemory_tracks tracks).bind ?_
  rintro ⟨v, u⟩ ⟨-, w⟩ ⟨rfl, rfl⟩
  exact rfl

theorem code_tracks (tracks : Tracks x s t) (inst : Lc3Def.Inst) :
    Both (Tracks x) (code inst s) (code inst t) := by
  have kept := tracks
  subst tracks
  cases inst with
  | ADD | ADDI | AND | ANDI | JSR | JSRR | LEA | NOT | RTI => exact rfl
  | BR =>
    change Tracks x (if s.machine.psr &&& (s.machine.ir &&& 0x0E00) ≠ 0 then _ else _)
      (if s.machine.psr &&& (s.machine.ir &&& 0x0E00) ≠ 0 then _ else _)
    split <;> exact rfl
  | JMP =>
    by_cases seven : s.machine.field 6 = 7
    · have there : (s.under { x with shouldHalt :=
        x.shouldHalt || s.settings.shouldHalt }).machine.field 6 = 7 := seven
      simp only [code, if_pos seven, if_pos there]
      exact rfl
    · have there : ¬ (s.under { x with shouldHalt :=
        x.shouldHalt || s.settings.shouldHalt }).machine.field 6 = 7 := seven
      simp only [code, if_neg seven, if_neg there]
      exact rfl
  | LD => exact load_tracks kept
  | LDR => exact load_tracks kept
  | LDI =>
    refine (readMemory_tracks kept).bind ?_
    rintro ⟨a, u⟩ ⟨-, v⟩ ⟨rfl, after⟩
    exact load_tracks after
  | ST => exact writeMemory_tracks kept
  | STR => exact writeMemory_tracks kept
  | STI =>
    refine (readMemory_tracks kept).bind ?_
    rintro ⟨a, u⟩ ⟨-, v⟩ ⟨rfl, after⟩
    subst after
    exact writeMemory_tracks rfl
  | TRAP =>
    have linked : Tracks x (s.setReg 7 s.machine.pc)
      ((s.under { x with shouldHalt := x.shouldHalt || s.settings.shouldHalt }).setReg 7
        s.machine.pc) := rfl
    refine (readMemory_tracks linked).bind ?_
    rintro ⟨a, u⟩ ⟨-, v⟩ ⟨rfl, rfl⟩
    exact rfl
  | DTU op =>
    have same (u : Sim) : u.machine = s.machine →
      dtuValue op (u.reg (u.machine.field 6)) (u.reg (u.machine.field 0)) (u.machine.ir &&& 0x7) =
        dtuValue op (s.reg (s.machine.field 6)) (s.reg (s.machine.field 0))
          (s.machine.ir &&& 0x7) := by
      intro alike
      unfold Sim.reg
      rw [alike]
    cases value : dtuValue op (s.reg (s.machine.field 6)) (s.reg (s.machine.field 0))
      (s.machine.ir &&& 0x7) with
    | some v =>
      simp only [code, value, same (s.under _) rfl]
      exact rfl
    | none =>
      simp only [code, value, same (s.under _) rfl]
      exact rfl

theorem attempt_tracks (tracks : Tracks x s t) :
    Both (fun p q => p.1 = q.1 ∧ Tracks x p.2 q.2) (attempt s) (attempt t) := by
  have traced : Both (Tracks x) (trace s) (trace t) := by
    unfold trace
    have same : t.settings.traceout = s.settings.traceout := by
      rw [tracks]
      rfl
    rw [same, tracks.alike.machine]
    split
    · exact (readMemory_tracks tracks).map fun _ _ read => read.2
    · exact tracks
  refine traced.bind ?_
  rintro u - rfl
  refine (readMemory_tracks rfl).bind ?_
  rintro ⟨word, v⟩ ⟨-, w⟩ ⟨rfl, rfl⟩
  dsimp only
  cases decode word with
  | none => exact ⟨rfl, rfl⟩
  | some inst => exact (code_tracks rfl inst).map fun _ _ after => ⟨rfl, after⟩

theorem executeInstruction_eq (s : Sim) :
    executeInstruction s = attempt s >>= fun r =>
      if r.1 then executed r.2 else .ok (false, r.2) := by
  unfold executeInstruction attempt
  simp only [bind_assoc]
  refine congrArg _ (funext fun t => congrArg _ (funext ?_))
  rintro ⟨word, u⟩
  dsimp only
  cases decode word with
  | none => rfl
  | some inst =>
    dsimp only
    generalize code inst _ = ran
    cases ran <;> rfl

theorem index_ok {pc : BitVec 16} (found : index addr = .ok pc) : addr.toNat < 65536 := by
  unfold index at found
  split at found
  · assumption
  · cases found

theorem index_eq {pc : BitVec 16} (found : index addr = .ok pc) : pc = addr.setWidth 16 := by
  unfold index at found
  split at found
  · cases found
    rfl
  · cases found

theorem index_ne {pc : BitVec 16} (found : index addr = .ok pc) : addr ≠ -1 := by
  rintro rfl
  exact absurd (index_ok found) (by decide)

theorem executed_eq {pc : BitVec 16} (found : index s.machine.pc = .ok pc)
    (running : s.settings.breakpoints pc = false)
    (elsewhere : s.machine.pc ≠ s.settings.sysBptAddr) : executed s =
      if 0 < s.settings.finishDepth then
        let called := s.lastFlags &&& subroutineFlag ≠ 0
        let depth := if called then s.settings.finishDepth + 1 else s.settings.finishDepth
        if called ∧ depth = maxFinishDepth then .ok
          (false, { s with settings := { s.settings with finishDepth := 0 } })
        else
          let returned := s.lastFlags &&& returnFlag ≠ 0
          let depth := if returned then depth - 1 else depth
          .ok (!decide (returned ∧ depth = 0),
            { s with settings := { s.settings with finishDepth := depth } })
      else .ok (true, s) := by
  unfold executed
  rw [found]
  change (if s.settings.breakpoints pc then _ else if s.machine.pc = s.settings.sysBptAddr then _
    else _) = _
  rw [running, if_neg Bool.false_ne_true, if_neg elsewhere]

theorem executed_ok {pc : BitVec 16} (found : index s.machine.pc = .ok pc) :
    ∃ more t, executed s = .ok (more, t) ∧ Alike s t := by
  unfold executed
  rw [found]
  change ∃ more t, (if s.settings.breakpoints pc then _ else _) = _ ∧ Alike s t
  split
  · exact ⟨_, _, rfl, rfl⟩
  split
  · exact ⟨_, _, rfl, rfl⟩
  split
  · dsimp only
    split <;> split <;> exact ⟨_, _, rfl, rfl⟩
  · exact ⟨_, _, rfl, rfl⟩

theorem executed_alike (alike : Alike s t) :
    Both (fun p q => Alike p.2 q.2) (executed s) (executed t) := by
  cases found : index s.machine.pc with
  | error stop =>
    have left : executed s = .error stop := by
      unfold executed
      rw [found]
      rfl
    have right : executed t = .error stop := by
      unfold executed
      rw [alike.machine, found]
      rfl
    rw [left, right]
    exact rfl
  | ok pc =>
    obtain ⟨more, u, ran, after⟩ := executed_ok found
    obtain ⟨more', u', ran', after'⟩ := executed_ok (s := t) (alike.machine ▸ found)
    rw [ran, ran']
    exact after.symm.trans (alike.trans after')

theorem executeInstruction_alike (alike : Alike s t) :
    Both (fun p q => Alike p.2 q.2) (executeInstruction s) (executeInstruction t) := by
  have plain (x : Stops) : Both (fun p q => Alike p.2 q.2) (executeInstruction (s.under free))
      (executeInstruction (s.under x)) := by
    rw [executeInstruction_eq, executeInstruction_eq]
    refine (attempt_tracks (tracks_free s x)).bind ?_
    rintro ⟨legal, u⟩ ⟨-, v⟩ ⟨rfl, tracks⟩
    dsimp only
    split
    · exact executed_alike tracks.alike
    · exact tracks.alike
  have own {u : Sim} (alike : Alike s u) :
    Both (fun p q => Alike p.2 q.2) (executeInstruction (s.under free))
      (executeInstruction u) := by
    obtain ⟨x, rfl⟩ := alike_iff.mp alike
    exact plain x
  refine ((own (.refl s)).join (own alike)).mono ?_
  rintro p q ⟨r, first, second⟩
  exact first.symm.trans second

theorem instruction_under (ran : executeInstruction (s.under free) = .ok (true, t)) :
    executeInstruction (s.under x) = executed
      (t.under { x with shouldHalt := x.shouldHalt || t.settings.shouldHalt }) := by
  have both := attempt_tracks (tracks_free s x)
  have own := attempt_tracks (tracks_free s free)
  rw [executeInstruction_eq] at ran ⊢
  cases first : attempt (s.under free) with
  | error stop =>
    rw [first] at ran
    cases ran
  | ok p =>
    obtain ⟨legal, u⟩ := p
    rw [first] at ran both own
    obtain ⟨⟨legal', v⟩, second, same, tracks⟩ := both.ok
    cases same
    have settings : u = u.under { free with shouldHalt :=
      free.shouldHalt || u.settings.shouldHalt } := own.2
    cases legal with
    | false => cases ran
    | true =>
      have free_run : executed u = .ok (true, u) := by
        cases found : index u.machine.pc with
        | error stop =>
          change executed u = _ at ran
          unfold executed at ran
          rw [found] at ran
          cases ran
        | ok pc =>
          have marks : u.settings.breakpoints = fun _ => false :=
            congrArg (fun s => s.settings.breakpoints) settings
          have system : u.settings.sysBptAddr = -1 :=
            congrArg (fun s => s.settings.sysBptAddr) settings
          have depth : u.settings.finishDepth = 0 :=
            congrArg (fun s => s.settings.finishDepth) settings
          rw [executed_eq found (congrFun marks pc) (system ▸ index_ne found), depth,
            if_neg (by decide)]
      change executed u = _ at ran
      cases ran.symm.trans free_run
      rw [second]
      exact congrArg executed tracks

end

/-! Every command moves the machine along the stream. -/

/-- This is how the machine is somewhere in the stream. -/
def Follows (s : Sim) (r : Except Stop Sim) : Prop := ∃ n, Both Alike r (stream n s)

section
variable {s t u : Sim} {r : Except Stop Sim} {addr : BitVec 32}

theorem stream_alike (alike : Alike s t) (n : Nat) : Both Alike (stream n s) (stream n t) := by
  induction n generalizing s t with
  | zero => exact alike
  | succ n ih =>
    have freed : Alike (s.under free) (t.under free) := alike
    exact (executeInstruction_alike freed).bind fun p q after => ih after

theorem stream_add (n m : Nat) (s : Sim) : stream (n + m) s = stream n s >>= stream m := by
  induction n generalizing s with
  | zero => rw [Nat.zero_add]; rfl
  | succ n ih =>
    rw [Nat.succ_add]
    simp only [stream, bind_assoc, ih]

theorem Follows.start (alike : Alike s t) : Follows s (.ok t) := ⟨0, alike.symm⟩

theorem Follows.alike (follows : Follows s r) (alike : Alike s t) : Follows t r := by
  obtain ⟨n, both⟩ := follows
  refine ⟨n, ?_⟩
  cases r with
  | error stop =>
    have ran := both.error
    have there := stream_alike alike n
    rw [ran] at there
    rw [there.error]
    exact rfl
  | ok u =>
    obtain ⟨v, ran, after⟩ := both.ok
    have there := stream_alike alike n
    rw [ran] at there
    obtain ⟨w, ran', further⟩ := there.ok
    rw [ran']
    exact after.trans further

theorem Follows.bind {f : Sim → Except Stop Sim} (follows : Follows s r)
    (next : ∀ t, r = .ok t → Follows t (f t)) :
    Follows s (r >>= f) := by
  obtain ⟨n, both⟩ := follows
  cases r with
  | error stop =>
    refine ⟨n, ?_⟩
    rw [both.error]
    exact rfl
  | ok t =>
    obtain ⟨v, ran, after⟩ := both.ok
    obtain ⟨m, further⟩ := (next t rfl).alike after
    refine ⟨n + m, ?_⟩
    rw [stream_add, ran]
    exact further

/-- Every state of the stream is in order, and no instruction stands in the registers of a
device. -/
structure Ordinary (s : Sim) : Prop where
  formed : WellFormed s
  away : ∀ n t, stream n s = .ok t → ¬ Device t.machine.pc

theorem stream_wellFormed (formed : WellFormed s) (n : Nat) : Ensures (stream n s) WellFormed := by
  induction n generalizing s with
  | zero => exact formed
  | succ n ih =>
    have freed : WellFormed (s.under free) := formed.of_machine rfl
    exact (executeInstruction_ensures freed).bind fun _ after => ih after

theorem Ordinary.follows (ordinary : Ordinary s) (follows : Follows s (.ok t)) : Ordinary t := by
  obtain ⟨n, both⟩ := follows
  obtain ⟨u, ran, after⟩ := both.ok
  have formed := stream_wellFormed ordinary.formed n
  rw [ran] at formed
  refine ⟨formed.of_machine after.symm.machine, ?_⟩
  intro m v ran'
  have there := stream_alike after m
  rw [ran'] at there
  obtain ⟨w, ran'', further⟩ := there.ok
  rw [← further.machine]
  exact ordinary.away (n + m) w (by rw [stream_add, ran]; exact ran'')

theorem readMemory_plain (word : Word addr) (plain : ¬ Device addr) :
    ∃ v, readMemory addr s = .ok (v, s) := by
  unfold Device at plain
  unfold readMemory
  rw [if_neg (fun same => plain (.inl same)), if_neg (fun same => plain (.inr (.inl same))),
    if_neg (fun same => plain (.inr (.inr same)))]
  split
  · exact ⟨_, rfl⟩
  split
  · exact ⟨_, rfl⟩
  · rw [index_of_word word]
    exact ⟨_, rfl⟩

theorem showState_eq (ordinary : Ordinary s) : showState s = .ok s := by
  obtain ⟨v, read⟩ := readMemory_plain (s := s) ordinary.formed.pc (ordinary.away 0 s rfl)
  rw [showState, read]
  rfl

/-- A call, an endless loop behind it, and a subroutine that calls another one. -/
def calling : Sim :=
  let s := reset ⟨fun _ => false, -1, 0, false, false, false⟩ ⟨[], fun _ => false, fun _ => 0, []⟩
  ((((((s.store 0 0x4801).store 1 0x0FFF).store 2 0x1DE0).store 3 0x4802).store 4 0x1FA0).store 5
    0xC1C0).store 6 0xC1C0

/-- The state behind so many instructions of it. -/
def callingAt : Nat → Sim
  | 0 => calling
  | n + 1 =>
    match executeInstruction ((callingAt n).under free) with
    | .ok (_, t) => t
    | .error _ => callingAt n

theorem calling_ordinary : Ordinary calling := by
  have looping (n : Nat) : stream n (callingAt 7) = .ok (callingAt 7) := by
    induction n with
    | zero => rfl
    | succ n ih => exact ih
  refine ⟨?_, ?_⟩
  · have zero : WellFormed
        (reset ⟨fun _ => false, -1, 0, false, false, false⟩ ⟨[], fun _ => false, fun _ => 0, []⟩) :=
      reset_wellFormed ..
    have word {v : BitVec 32} (small : v.toNat < 65536) : Word v := word_iff.mpr small
    exact ((((((zero.store (word (by decide))).store (word (by decide))).store
      (word (by decide))).store
      (word (by decide))).store (word (by decide))).store (word (by decide))).store
        (word (by decide))
  · intro n t ran
    by_cases early : n ≤ 7
    · have here : stream n calling = .ok (callingAt n) ∧ ¬ Device (callingAt n).machine.pc := by
        match n with
        | 0 | 1 | 2 | 3 | 4 | 5 | 6 | 7 => exact ⟨rfl, by decide⟩
      cases here.1.symm.trans ran
      exact here.2
    · obtain ⟨m, rfl⟩ : ∃ m, n = 7 + m := ⟨n - 7, by omega⟩
      rw [stream_add] at ran
      cases (looping m).symm.trans ran
      decide

end

/-! Where `finish`, `next` and `continue` stop. -/

/-- No command is at work. -/
def Idle (s : Sim) : Prop := s.settings.sysBptAddr = -1 ∧ s.settings.finishDepth = 0

/-- The states behind instructions that are legal and do not halt the machine. -/
inductive Executes : Sim → List Sim → Prop where
  | done (s : Sim) : Executes s []
  | instruction {s t : Sim} {ts : List Sim}
    (ran : executeInstruction (s.under free) = .ok (true, t))
      (on : t.settings.shouldHalt = false) (rest : Executes t ts) : Executes s (t :: ts)

/-- Behind each call stands, in front of its return, what is nested again, so many deep at the
most. -/
inductive Nested : Nat → List Sim → Prop where
  | nothing (n : Nat) : Nested n []
  | plain {n : Nat} {t : Sim} {ts : List Sim} (flags : t.lastFlags = 0) (rest : Nested n ts) :
    Nested n (t :: ts)
  | call {n : Nat} {t u : Sim} {body ts : List Sim} (called : t.lastFlags = subroutineFlag)
    (inner : Nested n body)
      (returned : u.lastFlags = returnFlag) (rest : Nested (n + 1) ts) :
        Nested (n + 1) (t :: body ++ u :: ts)

/-- The machine under the settings of a command. -/
def Sim.within (s : Sim) (marks : BitVec 16 → Bool) (system : BitVec 32) (depth : Int) : Sim :=
  s.under ⟨marks, system, depth, false⟩

/-- Neither a breakpoint nor the end of `next`. -/
def Unmarked (marks : BitVec 16 → Bool) (system : BitVec 32) (t : Sim) : Prop :=
  marks (t.machine.pc.setWidth 16) = false ∧ t.machine.pc ≠ system

/-- The last of the states. -/
def final (s : Sim) (ts : List Sim) : Sim := ts.getLastD s

section
variable {s s₀ t u : Sim} {ts us body : List Sim} {marks : BitVec 16 → Bool} {system : BitVec 32}
  {depth : Int} {n : Nat}

theorem final_append (s : Sim) (ts us : List Sim) : final s (ts ++ us) = final (final s ts) us := by
  induction ts generalizing s with
  | nil => rfl
  | cons t ts ih =>
    have tail : final s (t :: (ts ++ us)) = final t (ts ++ us) := List.getLastD_cons ..
    have tail' : final s (t :: ts) = final t ts := List.getLastD_cons ..
    rw [List.cons_append, tail, tail']
    exact ih t

theorem Executes.append_iff : Executes s (ts ++ us) ↔ Executes s ts ∧ Executes (final s ts) us := by
  induction ts generalizing s with
  | nil => exact ⟨fun ran => ⟨.done s, ran⟩, fun ran => ran.2⟩
  | cons t ts ih =>
    have tail : final s (t :: ts) = final t ts := List.getLastD_cons ..
    rw [tail]
    constructor
    · intro executes
      cases executes with
      | instruction ran on rest => exact ⟨.instruction ran on (ih.mp rest).1, (ih.mp rest).2⟩
    · rintro ⟨executes, later⟩
      cases executes with
      | instruction ran on rest => exact .instruction ran on (ih.mpr ⟨rest, later⟩)

theorem executeInstruction_at (ran : executeInstruction (s.under free) = .ok (true, t))
    (on : t.settings.shouldHalt = false) :
    executeInstruction (s.within marks system depth) = executed (t.within marks system depth) := by
  have same := instruction_under (x := ⟨marks, system, depth, false⟩) ran
  rw [on] at same
  exact same

theorem index_of_ran (ran : executeInstruction (s.under free) = .ok (true, t)) :
    ∃ pc, index t.machine.pc = .ok pc := by
  have own := instruction_under (x := free) ran
  rw [ran] at own
  cases found : index t.machine.pc with
  | ok pc => exact ⟨pc, rfl⟩
  | error stop =>
    unfold executed at own
    change _ = index t.machine.pc >>= _ at own
    rw [found] at own
    cases own

theorem executed_unmarked (depth : Int) (ran : executeInstruction (s.under free) = .ok (true, t))
    (on : t.settings.shouldHalt = false) (unmarked : Unmarked marks system t) :
    executeInstruction (s.within marks system depth) =
      if 0 < depth then
        let called := t.lastFlags &&& subroutineFlag ≠ 0
        let deeper := if called then depth + 1 else depth
        if called ∧ deeper = maxFinishDepth then .ok (false, t.within marks system 0)
        else
          let returned := t.lastFlags &&& returnFlag ≠ 0
          let left := if returned then deeper - 1 else deeper
          .ok (!decide (returned ∧ left = 0), t.within marks system left)
      else .ok (true, t.within marks system depth) := by
  obtain ⟨pc, found⟩ := index_of_ran ran
  have address := index_eq found
  rw [executeInstruction_at ran on,
    executed_eq (s := t.within marks system depth) found (address ▸ unmarked.1) unmarked.2]
  rfl

theorem executed_plain (depth : Int) (ran : executeInstruction (s.under free) = .ok (true, t))
    (on : t.settings.shouldHalt = false)
    (unmarked : Unmarked marks system t) (plain : t.lastFlags = 0) :
    executeInstruction (s.within marks system depth) = .ok (true, t.within marks system depth) := by
  rw [executed_unmarked _ ran on unmarked, plain]
  split
  · rfl
  · rfl

theorem executed_call (ran : executeInstruction (s.under free) = .ok (true, t))
    (on : t.settings.shouldHalt = false)
    (unmarked : Unmarked marks system t) (called : t.lastFlags = subroutineFlag)
    (positive : 0 < depth)
    (shallow : depth + 1 ≠ maxFinishDepth) :
    executeInstruction (s.within marks system depth) = .ok
      (true, t.within marks system (depth + 1)) := by
  have deeper : (if subroutineFlag &&& subroutineFlag ≠ 0 then depth + 1 else depth) = depth + 1 :=
    rfl
  rw [executed_unmarked _ ran on unmarked, called, if_pos positive]
  dsimp only
  rw [deeper, if_neg fun limit => shallow limit.2]
  rfl

theorem executed_return (ran : executeInstruction (s.under free) = .ok (true, t))
    (on : t.settings.shouldHalt = false)
    (unmarked : Unmarked marks system t) (returned : t.lastFlags = returnFlag)
    (positive : 0 < depth) :
    executeInstruction (s.within marks system depth) = .ok
      (!decide (depth = 1), t.within marks system (depth - 1)) := by
  have left : (if returnFlag &&& returnFlag ≠ 0 then depth - 1 else depth) = depth - 1 := rfl
  have last : decide (returnFlag &&& returnFlag ≠ 0 ∧ depth - 1 = 0) = decide (depth = 1) := by
    refine decide_eq_decide.mpr ⟨fun both => ?_, fun one => ⟨by decide, ?_⟩⟩ <;> omega
  rw [executed_unmarked _ ran on unmarked, returned, if_pos positive]
  dsimp only
  rw [if_neg fun limit => absurd limit.1 (by decide)]
  change Except.ok (!decide (returnFlag &&& returnFlag ≠ 0 ∧
    (if returnFlag &&& returnFlag ≠ 0 then depth - 1 else depth) = 0), t.within marks system
      (if returnFlag &&& returnFlag ≠ 0 then depth - 1 else depth)) = _
  rw [left, last]

theorem runLoop_instruction {depth' : Int} {more : Bool} {signal : Nat}
    (ran : executeInstruction (s.within marks system depth) = .ok
      (more, t.within marks system depth')) :
    runLoop (signal + 1) (s.within marks system depth) =
      if more then runLoop signal (t.within marks system depth')
        else .ok (t.within marks system depth') := by
  have off : (s.within marks system depth).settings.shouldHalt = false := rfl
  rw [runLoop, off, if_neg Bool.false_ne_true, ran]
  rfl

theorem runLoop_unmarked (ran : Executes s ts) (unmarked : ∀ t ∈ ts, Unmarked marks system t)
    (signal : Nat) :
    runLoop (ts.length + signal) (s.within marks system 0) = runLoop signal
      ((final s ts).within marks system 0) := by
  induction ran with
  | done s => rw [List.length_nil, Nat.zero_add]; rfl
  | @instruction s t ts ran on rest ih =>
    have step := executed_unmarked 0 ran on (unmarked t (List.mem_cons_self ..))
    rw [if_neg (by decide)] at step
    have tail : final s (t :: ts) = final t ts := List.getLastD_cons ..
    rw [List.length_cons, Nat.succ_add, runLoop_instruction step, if_pos rfl, tail]
    exact ih fun u mem => unmarked u (List.mem_cons_of_mem _ mem)

theorem runLoop_nested (nested : Nested n ts) (ran : Executes s ts)
    (unmarked : ∀ t ∈ ts, Unmarked marks system t)
    (positive : 0 < depth) (shallow : depth + n < maxFinishDepth) (signal : Nat) :
    runLoop (ts.length + signal) (s.within marks system depth) = runLoop signal
      ((final s ts).within marks system depth) := by
  induction nested generalizing s depth signal with
  | nothing => rw [List.length_nil, Nat.zero_add]; rfl
  | @plain n t ts flags rest ih =>
    cases ran with
    | instruction ran on later =>
      have step := executed_plain depth ran on (unmarked t (List.mem_cons_self ..)) flags
      have tail : final s (t :: ts) = final t ts := List.getLastD_cons ..
      rw [List.length_cons, Nat.succ_add, runLoop_instruction step, if_pos rfl, tail]
      exact ih later (fun u mem => unmarked u (List.mem_cons_of_mem _ mem)) positive shallow signal
  | @call n t u body ts called inner returned rest ih ih' =>
    cases ran with
    | instruction ran on later =>
      obtain ⟨inside, later⟩ := Executes.append_iff.mp later
      cases later with
      | instruction ran' on' later =>
        have step := executed_call ran on (unmarked t (List.mem_cons_self ..)) called positive
          (by omega)
        have back := executed_return ran' on' (unmarked u (by simp)) returned
          (show 0 < depth + 1 by omega)
        rw [Int.add_sub_cancel, decide_eq_false (by omega), Bool.not_false] at back
        have lengths : (t :: body ++ u :: ts).length + signal =
          (body.length + (ts.length + signal + 1)) + 1 := by
          simp only [List.cons_append, List.length_cons, List.length_append]
          omega
        have tail : final s (t :: body ++ u :: ts) = final u ts := by
          rw [final_append, show final (final s (t :: body))
            (u :: ts) = final u ts from List.getLastD_cons ..]
        have inner_run := ih inside (fun v mem => unmarked v (by simp [mem]))
          (show 0 < depth + 1 by omega)
          (by omega) (ts.length + signal + 1)
        rw [lengths, runLoop_instruction step, if_pos rfl, inner_run, runLoop_instruction back,
          if_pos rfl, tail]
        exact ih' later (fun v mem => unmarked v (by simp [mem])) positive shallow signal

theorem executed_marked (depth : Int) (ran : executeInstruction (s.under free) = .ok (true, t))
    (on : t.settings.shouldHalt = false) (marked : ¬ Unmarked marks system t) :
    executeInstruction (s.within marks system depth) = .ok
      (false, t.within marks system depth) := by
  obtain ⟨pc, found⟩ := index_of_ran ran
  have address := index_eq found
  rw [executeInstruction_at ran on]
  unfold executed
  change index t.machine.pc >>= _ = _
  rw [found]
  change (if marks pc then _ else if t.machine.pc = system then _ else _) = _
  unfold Unmarked at marked
  rw [← address] at marked
  by_cases mark : marks pc = true
  · rw [if_pos mark]
  · have arrived : t.machine.pc = system :=
      not_not.mp fun other => marked ⟨Bool.not_eq_true _ ▸ mark, other⟩
    rw [if_neg mark, if_pos arrived]

theorem Executes.under (x : Stops) (ran : Executes s ts) : Executes (s.under x) ts := by
  cases ran with
  | done => exact .done _
  | instruction ran on rest => exact .instruction ran on rest

theorem runUntilStopped_eq {signal : Nat} {depth' : Int}
    (looped : runLoop signal (s.within marks system depth) = .ok (t.within marks system depth'))
    (x : Bool) :
    runUntilStopped signal (s.under ⟨marks, system, depth, x⟩) = showState
      (t.within marks (-1) 0) := by
  change runLoop signal (s.within marks system depth) >>= _ = _
  rw [looped]
  rfl

theorem flush_settings {polls : Nat} {flush : Bool}
    (flushed : flushConsoleInput flush polls s = .ok t) :
    t.settings = s.settings := by
  have looped (polls : Nat) (s : Sim) (flushed : flushLoop polls s = .ok t) :
    t.settings = s.settings := by
    induction polls generalizing s with
    | zero => cases flushed
    | succ polls ih =>
      rw [flushLoop] at flushed
      dsimp only at flushed
      split at flushed
      · have later := ih _ flushed
        exact later
      · cases flushed
        rfl
  rw [flushConsoleInput] at flushed
  split at flushed
  · exact looped polls s flushed
  · cases flushed
    rfl

/-- `finish` goes on to the first return that belongs to no call behind it. -/
theorem finish_returns {signal polls : Nat} {flush : Bool} (idle : Idle s)
    (flushed : flushConsoleInput flush polls s = .ok s₀)
    (ran : Executes s₀ (body ++ [t])) (nested : Nested n body) (returned : t.lastFlags = returnFlag)
    (unmarked : ∀ u ∈ body, s.settings.breakpoints (u.machine.pc.setWidth 16) = false)
    (shallow : n + 1 < maxFinishDepth) (long : body.length < signal) :
    command flush polls s (.finish signal) = showState
      (t.within s.settings.breakpoints (-1) 0) := by
  have same := flush_settings flushed
  obtain ⟨inside, last⟩ := Executes.append_iff.mp ran
  obtain ⟨later, rfl⟩ : ∃ later, signal = body.length + (later + 1) :=
    ⟨signal - body.length - 1, by omega⟩
  have quiet : ∀ u ∈ body, Unmarked s.settings.breakpoints (-1) u := by
    intro u mem
    obtain ⟨a, b, rfl⟩ := List.append_of_mem mem
    obtain ⟨-, here⟩ := Executes.append_iff.mp inside
    cases here with
    | instruction ran on rest =>
      obtain ⟨pc, found⟩ := index_of_ran ran
      exact ⟨unmarked u mem, index_ne found⟩
  have looped := runLoop_nested nested inside quiet Int.one_pos (by omega) (later + 1)
  have start : { s₀ with settings := { s₀.settings with finishDepth := 1 } } =
      s₀.under ⟨s.settings.breakpoints, -1, 1, s.settings.shouldHalt⟩ := by
    rw [← idle.1, ← same]
    rfl
  change flushConsoleInput flush polls s >>= _ = _
  rw [flushed]
  change runUntilStopped _ { s₀ with settings := { s₀.settings with finishDepth := 1 } } = _
  rw [start]
  cases last with
  | instruction ran on rest =>
    by_cases free_end : Unmarked s.settings.breakpoints (-1) t
    · have step := executed_return ran on free_end returned Int.one_pos
      rw [decide_eq_true rfl, Bool.not_true] at step
      rw [runLoop_instruction step, if_neg Bool.false_ne_true] at looped
      exact runUntilStopped_eq looped _
    · have step := executed_marked 1 ran on free_end
      rw [runLoop_instruction step, if_neg Bool.false_ne_true] at looped
      exact runUntilStopped_eq looped _

/-- In the subroutine, with a character typed -/
def callingTyped : Sim :=
  { callingAt 1 with console := ⟨[0x61], fun n => n = 0, fun _ => 0, []⟩ }

theorem calling_executes : Executes calling [callingAt 1, callingAt 2, callingAt 3, callingAt 4,
    callingAt 5, callingAt 6] ∧
    Executes (callingAt 1) [callingAt 2, callingAt 3, callingAt 4, callingAt 5, callingAt 6] := by
  have inside : Executes
      (callingAt 1) [callingAt 2, callingAt 3, callingAt 4, callingAt 5, callingAt 6] :=
    .instruction rfl rfl (.instruction rfl rfl
      (.instruction rfl rfl (.instruction rfl rfl (.instruction rfl rfl (.done _)))))
  exact ⟨.instruction rfl rfl inside, inside⟩

theorem calling_nested : Nested 1 [callingAt 2, callingAt 3, callingAt 4, callingAt 5] :=
  .plain rfl (.call rfl (.nothing 0) rfl (.plain rfl (.nothing 1)))

theorem finish_returns_calling : command true 2 callingTyped (.finish 5) =
    showState ((callingAt 6).within (fun _ => false) (-1) 0) := by
  have ran : Executes (callingAt 1)
      ([callingAt 2, callingAt 3, callingAt 4, callingAt 5] ++ [callingAt 6]) := calling_executes.2
  have flushed : flushConsoleInput true 2 callingTyped = .ok (callingAt 1) := rfl
  exact finish_returns ⟨rfl, rfl⟩ flushed ran calling_nested rfl (fun _ _ => rfl) (by decide)
    (by decide)

/-- At a call whose subroutine comes back behind it, and not earlier, `next` is `step` and then
`finish`. -/
theorem next_eq_step_finish {signal polls : Nat} (idle : Idle s) (ordinary : Ordinary s)
    (ran : Executes s (t :: body ++ [u])) (called : t.lastFlags = subroutineFlag)
    (nested : Nested n body)
    (returned : u.lastFlags = returnFlag) (arrived : u.machine.pc = (s.machine.pc + 1) &&& 0xFFFF)
    (unmarked : ∀ v ∈ t :: body, Unmarked s.settings.breakpoints ((s.machine.pc + 1) &&& 0xFFFF) v)
    (shallow : n + 1 < maxFinishDepth) (long : body.length < signal) :
    command false polls s (.next signal) = command false polls s .step >>= fun s =>
      command false polls s (.finish signal) := by
  have first_unmarked := unmarked t (List.mem_cons_self ..)
  cases ran with
  | @instruction _ _ _ ran on rest =>
    have ordinary_next : Ordinary t := by
      refine ordinary.follows (t := t) ⟨1, ?_⟩
      simp only [stream, ran]
      exact rfl
    obtain ⟨pc, found⟩ := index_of_ran ran
    have plain : Unmarked s.settings.breakpoints (-1) t := ⟨first_unmarked.1, index_ne found⟩
    let x : Stops := ⟨s.settings.breakpoints, -1, 0, s.settings.shouldHalt⟩
    have own : s = s.under x := by
      rw [show x = ⟨s.settings.breakpoints, s.settings.sysBptAddr, s.settings.finishDepth,
        s.settings.shouldHalt⟩ from
        by rw [idle.1, idle.2]]
      rfl
    have first : executeInstruction s = .ok (true, t.under x) := by
      have same := instruction_under (x := x) ran
      rw [← own, on, Bool.or_false] at same
      rw [same, executed_eq (s := t.under x) found (index_eq found ▸ plain.1) plain.2]
      rfl
    have stepped : command false polls s .step = .ok (t.under x) := by
      change executeInstruction s >>= _ = _
      rw [first]
      exact showState_eq (ordinary_next.follows (.start rfl))
    have finished : command false polls (t.under x) (.finish signal) = showState
      (u.within s.settings.breakpoints (-1) 0) :=
      finish_returns ⟨rfl, rfl⟩ rfl (rest.under x) nested returned
        (fun v mem => (unmarked v (List.mem_cons_of_mem _ mem)).1) shallow long
    have looped : runLoop signal
        (t.within s.settings.breakpoints ((s.machine.pc + 1) &&& 0xFFFF) 0) =
        .ok (u.within s.settings.breakpoints ((s.machine.pc + 1) &&& 0xFFFF) 0) := by
      obtain ⟨inside, last⟩ := Executes.append_iff.mp rest
      obtain ⟨later, rfl⟩ : ∃ later, signal = body.length + (later + 1) :=
        ⟨signal - body.length - 1, by omega⟩
      rw [runLoop_unmarked inside (fun v mem => unmarked v (List.mem_cons_of_mem _ mem))]
      cases last with
      | instruction ran on rest =>
        rw [runLoop_instruction (executed_marked 0 ran on fun free_end => free_end.2 arrived),
          if_neg Bool.false_ne_true]
    have nexted : command false polls s (.next signal) = showState
      (u.within s.settings.breakpoints (-1) 0) := by
      have subroutine : (true : Bool) = true ∧ (t.under x).lastFlags &&& subroutineFlag ≠ 0 :=
        ⟨rfl, by rw [show (t.under x).lastFlags = subroutineFlag from called]; decide⟩
      change executeInstruction s >>= _ = _
      rw [first]
      exact (if_pos subroutine).trans (runUntilStopped_eq looped _)
    rw [nexted, stepped]
    exact finished.symm

theorem next_eq_step_finish_calling :
    command false 0 calling (.next 5) = command false 0 calling .step >>= fun s => command false 0 s
      (.finish 5) := by
  have ran : Executes calling
      (callingAt 1 :: [callingAt 2, callingAt 3, callingAt 4, callingAt 5] ++ [callingAt 6]) :=
    calling_executes.1
  have unmarked : ∀ v ∈ [callingAt 1, callingAt 2, callingAt 3, callingAt 4, callingAt 5],
      Unmarked calling.settings.breakpoints ((calling.machine.pc + 1) &&& 0xFFFF) v := by
    simp only [List.forall_mem_cons]
    exact ⟨⟨rfl, by decide⟩, ⟨rfl, by decide⟩, ⟨rfl, by decide⟩, ⟨rfl, by decide⟩, ⟨rfl, by decide⟩,
      fun _ mem => nomatch mem⟩
  exact next_eq_step_finish ⟨rfl, rfl⟩ calling_ordinary ran rfl calling_nested rfl rfl unmarked
    (by decide) (by decide)

end

end LC3Tools.Lc3Sim
