import LC3Tools.Assembler.Text
import LC3Tools.Sim.Lc3Def

/-! `execute_instruction` and `read_obj_file` of `lc3sim.c` with all of `lc3.def`, and that every
word of the machine stays in 16 bits. -/
namespace LC3Tools.Lc3Sim
open Lc3Def

/-- Why there is no next state: an index outside of a table, an operator of C that is undefined on
its operands, the end of the input, at which the simulator exits, or a command that does not come to
run the machine because the input in front of it has no end. -/
inductive Stop where
  | outOfRange | undefined | exited | flushing
  deriving DecidableEq, Repr

/-- What the commands set between instructions. -/
structure Settings where
  breakpoints : BitVec 16 → Bool
  sysBptAddr : BitVec 32
  finishDepth : Int
  shouldHalt : Bool
  randDevice : Bool
  traceout : Bool

/-- What `fgetc` has left to read, and the answers of `poll` and `random` to come. -/
structure Console where
  input : List Byte
  poll : Nat → Bool
  random : Nat → BitVec 32
  output : List Byte

structure Sim where
  machine : Machine
  lastKBSRRead : Bool
  lastDSRRead : Bool
  lastFlags : BitVec 32
  settings : Settings
  console : Console

def index (addr : BitVec 32) : Except Stop (BitVec 16) :=
  if addr.toNat < 65536 then .ok (addr.setWidth 16) else .error .outOfRange

namespace Sim
variable (s : Sim)

def reg (n : Fin 8) : BitVec 32 := s.machine.reg n

def setReg (n : Fin 8) (value : BitVec 32) : Sim := { s with machine := s.machine.setReg n value }

def setPC (value : BitVec 32) : Sim := { s with machine := { s.machine with pc := value } }

def store (a : BitVec 16) (value : BitVec 32) : Sim :=
  { s with machine := { s.machine with memory :=
    fun b => if b = a then value else s.machine.memory b } }

/-- The value goes to `REG (I_DR)`, and `SET_CC ()`. -/
def result (value : BitVec 32) : Sim :=
  let m := s.machine.setReg (s.machine.field 9) value
  { s with machine := m.setCC (m.reg (m.field 9)) }

def nextPoll : Bool × Sim :=
  (s.console.poll 0, { s with console :=
    { s.console with poll := fun n => s.console.poll (n + 1) } })

/-- `!rand_device || (random () & 15) == 0` -/
def deviceReady : Bool × Sim :=
  if !s.settings.randDevice then (true, s)
  else (s.console.random 0 &&& 15 = 0,
    { s with console := { s.console with random := fun n => s.console.random (n + 1) } })

end Sim

/-- The status of the keyboard. -/
def readKBSR (s : Sim) : BitVec 32 × Sim :=
  let s :=
    if s.lastKBSRRead then s
    else
      let (ready, s) := s.nextPoll
      if ready then
        let (ready, s) := s.deviceReady
        { s with lastKBSRRead := ready }
      else s
  (if s.lastKBSRRead then 0x8000 else 0x0000, s)

def readKBDR (s : Sim) : Except Stop (BitVec 32 × Sim) :=
  if s.lastKBSRRead then
    match s.console.input with
    | [] => .error .exited
    | c :: rest =>
      let s := s.store 0xFE02 (c.setWidth 32)
      let s := { s with lastKBSRRead := false, console := { s.console with input := rest } }
      .ok (s.machine.memory 0xFE02, s)
  else .ok (s.machine.memory 0xFE02, s)

def readDSR (s : Sim) : BitVec 32 × Sim :=
  let s :=
    if s.lastDSRRead then s
    else
      let (ready, s) := s.deviceReady
      { s with lastDSRRead := ready }
  (if s.lastDSRRead then 0x8000 else 0x0000, s)

def readMemory (addr : BitVec 32) (s : Sim) : Except Stop (BitVec 32 × Sim) :=
  if addr = 0xFE00 then .ok (readKBSR s)
  else if addr = 0xFE02 then readKBDR s
  else if addr = 0xFE04 then .ok (readDSR s)
  else if addr = 0xFE06 then .ok (0x0000, s)
  else if addr = 0xFFFE then .ok (0x8000, s)
  else do
    let a ← index addr
    .ok (s.machine.memory a, s)

def writeMemory (addr value : BitVec 32) (s : Sim) : Except Stop Sim :=
  if addr = 0xFE00 ∨ addr = 0xFE02 ∨ addr = 0xFE04 then .ok s
  else if addr = 0xFE06 then
    if s.lastDSRRead = false then .ok s
    else .ok { s with
      lastDSRRead := false
      console := { s.console with output := s.console.output ++ [value.setWidth 8] } }
  else if addr = 0xFFFE then
    if value &&& 0x8000 = 0 then .ok { s with settings := { s.settings with shouldHalt := true } }
      else .ok s
  else do
    let a ← index addr
    if value ≠ s.machine.memory a then .ok (s.store a value) else .ok s

/-! The fields of an instruction. -/

/-- `F_imm5`, `F_imm6`, `F_imm9` and `F_imm11` are this at their bits. -/
def imm (sign low i : BitVec 32) : BitVec 32 := if i &&& sign = 0 then i &&& low else i ||| ~~~low

def imm5 : BitVec 32 → BitVec 32 := imm 0x010 0x00F
def imm6 : BitVec 32 → BitVec 32 := imm 0x020 0x01F
def imm9 : BitVec 32 → BitVec 32 := imm 0x100 0x1FF
def imm11 : BitVec 32 → BitVec 32 := imm 0x400 0x3FF

def subroutineFlag : BitVec 32 := 1
def returnFlag : BitVec 32 := 2

def flags : Inst → BitVec 32
  | .JSR | .JSRR | .TRAP => subroutineFlag
  | _ => 0

/-- The code of each `DEF_INST`. -/
def code (inst : Inst) (s : Sim) : Except Stop Sim :=
  let i := s.machine.ir
  let dr := s.machine.field 9
  let sr1 := s.machine.field 6
  let sr2 := s.machine.field 0
  let pc := s.machine.pc
  match inst with
  | .ADD => .ok (s.result ((s.reg sr1 + s.reg sr2) &&& 0xFFFF))
  | .ADDI => .ok (s.result ((s.reg sr1 + imm5 i) &&& 0xFFFF))
  | .AND => .ok (s.result (s.reg sr1 &&& s.reg sr2))
  | .ANDI => .ok (s.result (s.reg sr1 &&& imm5 i))
  | .BR =>
    .ok (if s.machine.psr &&& (i &&& 0x0E00) ≠ 0 then s.setPC ((pc + imm9 i) &&& 0xFFFF) else s)
  | .JMP =>
    let s := if sr1 = 7 then { s with lastFlags := s.lastFlags ||| returnFlag } else s
    .ok (s.setPC (s.reg sr1))
  | .JSR => .ok ((s.setReg 7 pc).setPC ((pc + imm11 i) &&& 0xFFFF))
  | .JSRR => .ok ((s.setReg 7 pc).setPC (s.reg sr1))
  | .LD => do
    let (v, s) ← readMemory ((pc + imm9 i) &&& 0xFFFF) s
    .ok (s.result v)
  | .LDI => do
    let (a, s) ← readMemory ((pc + imm9 i) &&& 0xFFFF) s
    let (v, s) ← readMemory a s
    .ok (s.result v)
  | .LDR => do
    let (v, s) ← readMemory ((s.reg sr1 + imm6 i) &&& 0xFFFF) s
    .ok (s.result v)
  | .LEA => .ok (s.result ((pc + imm9 i) &&& 0xFFFF))
  | .NOT => .ok (s.result (s.reg sr1 ^^^ 0xFFFF))
  | .RTI => .ok s
  | .ST => writeMemory ((pc + imm9 i) &&& 0xFFFF) (s.reg dr) s
  | .STI => do
    let (a, s) ← readMemory ((pc + imm9 i) &&& 0xFFFF) s
    writeMemory a (s.reg dr) s
  | .STR => writeMemory ((s.reg sr1 + imm6 i) &&& 0xFFFF) (s.reg dr) s
  | .TRAP => do
    let s := s.setReg 7 pc
    let (v, s) ← readMemory (i &&& 0xFF) s
    .ok (s.setPC v)
  | .DTU op =>
    match dtuValue op (s.reg sr1) (s.reg sr2) (i &&& 0x7) with
    | some v => .ok (s.result (v &&& 0xFFFF))
    | none => .error .undefined

def maxFinishDepth : Int := 10000000

/-- From the label `executed` on, whether the machine runs on. -/
def executed (s : Sim) : Except Stop (Bool × Sim) := do
  let pc ← index s.machine.pc
  if s.settings.breakpoints pc then .ok (false, s)
  else if s.machine.pc = s.settings.sysBptAddr then .ok (false, s)
  else if 0 < s.settings.finishDepth then
    let called := s.lastFlags &&& subroutineFlag ≠ 0
    let depth := if called then s.settings.finishDepth + 1 else s.settings.finishDepth
    if called ∧ depth = maxFinishDepth then
      .ok (false, { s with settings := { s.settings with finishDepth := 0 } })
    else
      let returned := s.lastFlags &&& returnFlag ≠ 0
      let depth := if returned then depth - 1 else depth
      .ok (!decide (returned ∧ depth = 0),
        { s with settings := { s.settings with finishDepth := depth } })
  else .ok (true, s)

/-- A trace disassembles the instruction, and reads it for that. -/
def trace (s : Sim) : Except Stop Sim :=
  if s.settings.traceout then (readMemory s.machine.pc s).map (·.2) else .ok s

def executeInstruction (s : Sim) : Except Stop (Bool × Sim) := do
  let s ← trace s
  let (word, s) ← readMemory s.machine.pc s
  let s : Sim := { s with machine :=
    { s.machine with ir := word, pc := (s.machine.pc + 1) &&& 0xFFFF } }
  match decode s.machine.ir with
  | some inst => code inst { s with lastFlags := flags inst } >>= executed
  | none => .ok (false, s.setPC ((s.machine.pc - 1) &&& 0xFFFF))

/-! Object files, and the runs. -/

def fileWord (high low : Byte) : BitVec 32 := high.setWidth 32 <<< 8 ||| low.setWidth 32

/-- The words of the file, and the address behind them. -/
def readWords (addr : BitVec 32) : List Byte → Sim → Except Stop (BitVec 32 × Sim)
  | high :: low :: rest, s => do
    let s ← writeMemory addr (fileWord high low) s
    readWords ((addr + 1) &&& 0xFFFF) rest s
  | _, s => .ok (addr, s)

/-- The start and the end, if the file has a first word. -/
def readObjFile (file : List Byte) (s : Sim) : Except Stop (Option (BitVec 32 × BitVec 32) × Sim) :=
  match file with
  | high :: low :: rest => do
    let start := fileWord high low
    let (addr, s) ← readWords start rest s
    .ok (some (start, addr), s)
  | _ => .ok (none, s)

/-- A file is loaded at its start, and the program counter is set to an address: to the start by
`cmd_file`, and to x0200 by `init_machine`. -/
def load (file : List Byte) (pc : BitVec 32 → BitVec 32) (s : Sim) : Except Stop Sim := do
  match ← readObjFile file s with
  | (some (start, _), s) => .ok (s.setPC (pc start))
  | (none, s) => .ok s

inductive Action where
  | file (bytes : List Byte)
  | set (settings : Settings)
  | execute

def act (s : Sim) : Action → Except Stop Sim
  | .file bytes => load bytes id s
  | .set settings => .ok { s with settings := settings }
  | .execute => (executeInstruction s).map (·.2)

/-- All registers and all of the memory are zero, but the condition code. -/
def reset (settings : Settings) (console : Console) : Sim where
  machine := { reg := fun _ => 0, pc := 0, ir := 0, psr := 2#32 <<< 9, memory := fun _ => 0 }
  lastKBSRRead := false
  lastDSRRead := false
  lastFlags := 0
  settings := settings
  console := console

def run (os : List Byte) (settings : Settings) (console : Console) (actions : List Action) :
    Except Stop Sim := do
  let s ← load os (fun _ => 0x0200) (reset settings console)
  actions.foldlM act s

/-! What every state keeps. -/

def Word (x : BitVec 32) : Prop := 0 ≤ x.toInt ∧ x.toInt ≤ 65535

/-- One of the bits N, Z and P. -/
def OneFlag (psr : BitVec 32) : Prop :=
  psr &&& 0x0E00 = 0x0800 ∨ psr &&& 0x0E00 = 0x0400 ∨ psr &&& 0x0E00 = 0x0200

structure WellFormed (s : Sim) : Prop where
  reg : ∀ n, Word (s.machine.reg n)
  pc : Word s.machine.pc
  memory : ∀ a, Word (s.machine.memory a)
  psr : OneFlag s.machine.psr

/-- No index is out of range, and the result, if there is one, is as it should be. -/
def Ensures {α : Type} (r : Except Stop α) (Q : α → Prop) : Prop :=
  match r with
  | .ok a => Q a
  | .error stop => stop ≠ .outOfRange

section
variable {α β : Type} {r : Except Stop α} {f : α → Except Stop β} {Q : α → Prop} {R : β → Prop}
  {s : Sim}
  {v x y addr : BitVec 32}

namespace Ensures

theorem bind (first : Ensures r Q) (next : ∀ a, Q a → Ensures (f a) R) : Ensures (r >>= f) R := by
  cases r with
  | ok a => exact next a first
  | error stop => exact first

theorem map {g : α → β} (first : Ensures r Q) (after : ∀ a, Q a → R (g a)) :
    Ensures (r.map g) R := by
  cases r with
  | ok a => exact after a first
  | error stop => exact first

end Ensures

theorem word_iff : Word x ↔ x.toNat < 65536 := by
  unfold Word
  rw [BitVec.toInt_eq_toNat_cond]
  have bound := x.isLt
  omega

theorem word_mask : Word (x &&& 0xFFFF) := by
  rw [word_iff, BitVec.toNat_and]
  exact Nat.lt_of_le_of_lt Nat.and_le_right (by decide)

theorem Word.and (word : Word x) : Word (x &&& y) := by
  rw [word_iff] at word ⊢
  rw [BitVec.toNat_and]
  exact Nat.lt_of_le_of_lt Nat.and_le_left word

theorem Word.xor (word : Word x) : Word (x ^^^ 0xFFFF) := by
  rw [word_iff] at word ⊢
  rw [BitVec.toNat_xor]
  exact Nat.xor_lt_two_pow (n := 16) word (by decide)

theorem word_byte (b : Byte) : Word (b.setWidth 32) := by
  rw [word_iff, BitVec.toNat_setWidth]
  omega

theorem word_file (high low : Byte) : Word (fileWord high low) := by
  have up : (high.setWidth 32 <<< 8).toNat = high.toNat * 256 := by
    rw [BitVec.toNat_shiftLeft, BitVec.toNat_setWidth, Nat.shiftLeft_eq]
    omega
  have down : (low.setWidth 32).toNat < 2 ^ 16 := by
    rw [BitVec.toNat_setWidth]
    omega
  rw [word_iff, fileWord, BitVec.toNat_or, up]
  exact Nat.or_lt_two_pow (n := 16) (by omega) down

theorem index_of_word (word : Word addr) : index addr = .ok (addr.setWidth 16) :=
  if_pos (word_iff.mp word)

theorem setCC_oneFlag (m : Machine) : OneFlag (m.setCC v).psr := by
  have cleared (k : BitVec 32) : (m.psr &&& ~~~0x0e00 ||| k) &&& 0x0e00#32 = k &&& 0x0e00#32 := by
    rw [BitVec.and_or_distrib_right, BitVec.and_assoc,
      show ~~~(0x0e00 : BitVec 32) &&& 0x0e00#32 = 0#32 from rfl]
    simp
  unfold OneFlag Machine.setCC
  dsimp only
  split
  · exact .inl (cleared _)
  · split
    · exact .inr (.inl (cleared _))
    · exact .inr (.inr (cleared _))

namespace WellFormed

theorem setReg (formed : WellFormed s) {n : Fin 8} (word : Word v) : WellFormed (s.setReg n v) where
  reg i := by
    change Word (if i = n then v else s.machine.reg i)
    split
    · exact word
    · exact formed.reg i
  pc := formed.pc
  memory := formed.memory
  psr := formed.psr

theorem setPC (formed : WellFormed s) (word : Word v) : WellFormed (s.setPC v) where
  reg := formed.reg
  pc := word
  memory := formed.memory
  psr := formed.psr

theorem store (formed : WellFormed s) {a : BitVec 16} (word : Word v) :
    WellFormed (s.store a v) where
  reg := formed.reg
  pc := formed.pc
  memory b := by
    change Word (if b = a then v else s.machine.memory b)
    split
    · exact word
    · exact formed.memory b
  psr := formed.psr

theorem result (formed : WellFormed s) (word : Word v) : WellFormed (s.result v) where
  reg := (formed.setReg word).reg
  pc := formed.pc
  memory := formed.memory
  psr := setCC_oneFlag _

theorem of_machine {t : Sim} (formed : WellFormed s) (same : t.machine = s.machine) :
    WellFormed t where
  reg := same ▸ formed.reg
  pc := same ▸ formed.pc
  memory := same ▸ formed.memory
  psr := same ▸ formed.psr

end WellFormed

/-! The devices leave the machine alone, but for the keyboard's data. -/

theorem deviceReady_machine (s : Sim) : s.deviceReady.2.machine = s.machine := by
  unfold Sim.deviceReady
  split <;> rfl

theorem readKBSR_machine (s : Sim) : (readKBSR s).2.machine = s.machine := by
  unfold readKBSR
  dsimp only
  split
  · rfl
  · split
    · exact deviceReady_machine s.nextPoll.2
    · rfl

theorem readDSR_machine (s : Sim) : (readDSR s).2.machine = s.machine := by
  unfold readDSR
  dsimp only
  split
  · rfl
  · exact deviceReady_machine s

theorem word_status (ready : Bool) : Word (if ready then 0x8000 else 0x0000) := by
  cases ready <;> exact word_iff.mpr (by decide)

/-- A word is read, whatever the devices do. -/
theorem readMemory_ensures (formed : WellFormed s) (word : Word addr) :
    Ensures (readMemory addr s) fun (v, t) => Word v ∧ WellFormed t := by
  unfold readMemory
  split
  · exact ⟨word_status _, formed.of_machine (readKBSR_machine s)⟩
  split
  · unfold readKBDR
    split
    · cases s.console.input with
      | nil => exact fun same => by cases same
      | cons c rest =>
        have stored := formed.store (a := 0xFE02) (word_byte c)
        exact ⟨stored.memory _, stored.of_machine rfl⟩
    · exact ⟨formed.memory _, formed⟩
  split
  · exact ⟨word_status _, formed.of_machine (readDSR_machine s)⟩
  split
  · exact ⟨word_iff.mpr (by decide), formed⟩
  split
  · exact ⟨word_iff.mpr (by decide), formed⟩
  · rw [index_of_word word]
    exact ⟨formed.memory _, formed⟩

theorem writeMemory_ensures (formed : WellFormed s) (word : Word addr) (value : Word v) :
    Ensures (writeMemory addr v s) WellFormed := by
  unfold writeMemory
  split
  · exact formed
  split
  · split
    · exact formed
    · exact formed.of_machine rfl
  split
  · split
    · exact formed.of_machine rfl
    · exact formed
  · rw [index_of_word word]
    change Ensures (if v ≠ _ then _ else _) _
    split
    · exact formed.store value
    · exact formed

theorem code_ensures (formed : WellFormed s) (inst : Inst) : Ensures (code inst s) WellFormed := by
  have load {a : BitVec 32} {t : Sim} (now : WellFormed t) (word : Word a) :
      Ensures (readMemory a t >>= fun (v, t) => .ok (t.result v)) WellFormed :=
    (readMemory_ensures now word).bind fun _ ⟨value, after⟩ => after.result value
  cases inst with
  | ADD => exact formed.result word_mask
  | ADDI => exact formed.result word_mask
  | AND => exact formed.result (formed.reg _).and
  | ANDI => exact formed.result (formed.reg _).and
  | BR =>
    change WellFormed (if _ then _ else _)
    split
    · exact formed.setPC word_mask
    · exact formed
  | JMP =>
    change WellFormed (Sim.setPC (if _ then _ else _) _)
    split
    · refine WellFormed.setPC ?_ (formed.reg _)
      exact formed.of_machine rfl
    · exact formed.setPC (formed.reg _)
  | JSR => exact (formed.setReg formed.pc).setPC word_mask
  | JSRR => exact (formed.setReg formed.pc).setPC (formed.reg _)
  | LD => exact load formed word_mask
  | LDI =>
    exact (readMemory_ensures formed word_mask).bind fun _ ⟨address, after⟩ => load after address
  | LDR => exact load formed word_mask
  | LEA => exact formed.result word_mask
  | NOT => exact formed.result (formed.reg _).xor
  | RTI => exact formed
  | ST => exact writeMemory_ensures formed word_mask (formed.reg _)
  | STI =>
    exact (readMemory_ensures formed word_mask).bind fun _ ⟨address, after⟩ =>
      writeMemory_ensures after address (after.reg _)
  | STR => exact writeMemory_ensures formed word_mask (formed.reg _)
  | TRAP =>
    have vector : Word (s.machine.ir &&& 0xFF) := by
      rw [word_iff, BitVec.toNat_and]
      exact Nat.lt_of_le_of_lt Nat.and_le_right (by decide)
    exact (readMemory_ensures (formed.setReg formed.pc) vector).bind fun _ ⟨value, after⟩ =>
      after.setPC value
  | DTU op =>
    unfold code
    dsimp only
    split
    · exact formed.result word_mask
    · exact fun same => by cases same

theorem result_machine (s : Sim) (v : BitVec 32) :
    (s.result v).machine = (s.machine.setReg (s.machine.field 9) v).setCC v :=
  congrArg (Machine.setCC _) (if_pos rfl)

theorem code_dtu {word : BitVec 32} {op : Sim.ResOpcode} (dtu : decode word = some (.DTU op)) :
    Lc3Def.executeInstruction word s.machine =
      (code (.DTU op) { s with machine :=
        { s.machine with ir := word, pc := (s.machine.pc + 1) &&& 0xFFFF } }).toOption.map
          Sim.machine := by
  simp only [Lc3Def.executeInstruction, dtu, code, Sim.reg]
  cases dtuValue op (s.machine.reg (Machine.field ⟨s.machine.reg, _, word, _, _⟩ 6)) _ _ with
  | none => rfl
  | some v => simp only [Option.map_some, Except.toOption, result_machine]

theorem executed_ensures (formed : WellFormed s) :
    Ensures (executed s) fun (_, t) => WellFormed t := by
  unfold executed
  rw [index_of_word formed.pc]
  change Ensures (if _ then _ else _) _
  split
  · exact formed
  split
  · exact formed
  split
  · dsimp only
    split <;> split <;> exact formed.of_machine rfl
  · exact formed

theorem executeInstruction_ensures (formed : WellFormed s) :
    Ensures (executeInstruction s) fun (_, t) => WellFormed t := by
  have traced : Ensures (trace s) WellFormed := by
    unfold trace
    split
    · exact (readMemory_ensures formed formed.pc).map fun _ ⟨_, after⟩ => after
    · exact formed
  unfold executeInstruction
  refine traced.bind fun t now => (readMemory_ensures now now.pc).bind ?_
  rintro ⟨word, u⟩ ⟨-, read⟩
  have fetched : WellFormed { u with machine :=
      { u.machine with ir := word, pc := (u.machine.pc + 1) &&& 0xFFFF } } :=
    ⟨read.reg, word_mask, read.memory, read.psr⟩
  dsimp only
  split
  · refine (code_ensures ?_ _).bind fun _ after => executed_ensures after
    exact fetched.of_machine rfl
  · exact fetched.setPC word_mask

theorem readWords_ensures (formed : WellFormed s) (word : Word addr) (bytes : List Byte) :
    Ensures (readWords addr bytes s) fun (_, t) => WellFormed t := by
  induction bytes using List.twoStepInduction generalizing s addr with
  | nil => exact formed
  | singleton b => exact formed
  | cons_cons high low rest ih _ =>
    exact (writeMemory_ensures formed word (word_file high low)).bind fun _ after =>
      ih after word_mask

theorem load_ensures {pc : BitVec 32 → BitVec 32} (keeps : ∀ a, Word a → Word (pc a))
    (formed : WellFormed s)
    (file : List Byte) : Ensures (load file pc s) WellFormed := by
  match file with
  | [] => exact formed
  | [_] => exact formed
  | high :: low :: rest =>
    have words := readWords_ensures formed (word_file high low) rest
    unfold load readObjFile
    simp only [bind_assoc]
    exact words.bind fun (_, t) after => after.setPC (keeps _ (word_file high low))

theorem act_ensures (formed : WellFormed s) (action : Action) :
    Ensures (act s action) WellFormed := by
  cases action with
  | file bytes => exact load_ensures (fun _ => id) formed bytes
  | set settings => exact formed.of_machine rfl
  | execute => exact (executeInstruction_ensures formed).map fun _ => id

theorem acts_ensures (formed : WellFormed s) (actions : List Action) :
    Ensures (actions.foldlM act s) WellFormed := by
  induction actions generalizing s with
  | nil => exact formed
  | cons action rest ih =>
    rw [List.foldlM_cons]
    exact (act_ensures formed action).bind fun _ => ih

theorem reset_wellFormed (settings : Settings) (console : Console) :
    WellFormed (reset settings console) := by
  have zero : Word 0 := word_iff.mpr (by decide)
  have flag : 2#32 <<< 9 &&& 0x0E00 = 0x0400 := by decide
  exact ⟨fun _ => zero, zero, fun _ => zero, .inr (.inl flag)⟩

end

/-- Every run, of any object files, console and settings, keeps the words of the machine within 16
bits and one condition code, and never indexes a table out of range. -/
theorem run_wellFormed (os : List Byte) (settings : Settings) (console : Console)
    (actions : List Action) :
    Ensures (run os settings console actions) WellFormed :=
  (load_ensures (fun _ _ => word_iff.mpr (by decide)) (reset_wellFormed settings console) os).bind
    fun _ formed =>
    acts_ensures formed actions

end LC3Tools.Lc3Sim
