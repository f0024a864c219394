import LC3Tools.Assembler.Text
import LC3Tools.Lcc.Macros

/-! Hand-written routines of the library: the source with its labels, the words it is assembled to,
and the 16-bit machine that fetches and decodes them. The services of the operating system are taken
as they are documented. -/
namespace LC3Tools.Stdio
open Emit StateTransition

instance (priority := 10000) : LawfulBEq Word := inferInstance

/-- The services that the library calls by TRAP. -/
inductive Service where
  | getc | out | puts
  deriving DecidableEq, Repr

/-- An instruction. The operand that counts from the program counter is a label in the source and an
offset in the word. -/
inductive Inst (T : Type) where
  | add (i j k : Fin 8)
  | addImm (i j : Fin 8) (v : Int)
  | and (i j k : Fin 8)
  | andImm (i j : Fin 8) (v : Int)
  | not (i j : Fin 8)
  | ldr (i j : Fin 8) (v : Int)
  | str (i j : Fin 8) (v : Int)
  | ld (i : Fin 8) (t : T)
  | lea (i : Fin 8) (t : T)
  | br (n z p : Bool) (t : T)
  | trap (service : Service)
  | ret
  deriving DecidableEq, Repr

namespace Inst
variable {T U : Type}

def map (f : T → U) : Inst T → Inst U
  | add i j k => add i j k
  | addImm i j v => addImm i j v
  | and i j k => and i j k
  | andImm i j v => andImm i j v
  | not i j => not i j
  | ldr i j v => ldr i j v
  | str i j v => str i j v
  | ld i t => ld i (f t)
  | lea i t => lea i (f t)
  | br n z p t => br n z p (f t)
  | trap service => trap service
  | ret => ret

/-- What an instruction that hands over to the next one does. -/
def act (address : T → Word) (m : Machine) : Inst T → Machine
  | add i j k => m.set i (m.reg j + m.reg k)
  | addImm i j v => m.set i (m.reg j + BitVec.ofInt 16 v)
  | and i j k => m.set i (m.reg j &&& m.reg k)
  | andImm i j v => m.set i (m.reg j &&& BitVec.ofInt 16 v)
  | not i j => m.set i (~~~ m.reg j)
  | ldr i j v => m.set i (m.mem (m.reg j + BitVec.ofInt 16 v))
  | str i j v => m.write (m.reg j + BitVec.ofInt 16 v) (m.reg i)
  | ld i t => m.set i (m.mem (address t))
  | lea i t => m.set i (address t)
  | br .. | trap _ | ret => m

end Inst

structure State where
  machine : Machine
  pc : Word
  input : List Byte
  output : List Byte

/-- What a service leaves behind besides its result: any value in R7, any condition code, and any
value in R0 where R0 is not the result. -/
structure Os where
  r0 : State → Word
  r7 : State → Word
  last : State → Word

/-- The characters from an address on up to a zero, none if no zero is among that many words. -/
def stringFrom (mem : Word → Word) : Nat → Word → Option (List Word)
  | 0, _ => none
  | n + 1, a => if mem a = 0 then some [] else (stringFrom mem n (a + 1)).map (mem a :: ·)

theorem stringFrom_end {mem : Word → Word} {a : Word} (n : Nat) (there : mem a = 0) :
    stringFrom mem (n + 1) a = some [] :=
  if_pos there

theorem stringFrom_next {mem : Word → Word} {n : Nat} {a c : Word} {text : List Word}
    (there : mem a = c)
    (nonzero : c ≠ 0) (rest : stringFrom mem n (a + 1) = some text) :
    stringFrom mem (n + 1) a = some (c :: text) := by
  subst there
  rw [stringFrom, if_neg nonzero, rest]
  rfl

theorem stringFrom_mono {mem : Word → Word} {a : Word} {text : List Word} {n m : Nat}
    (found : stringFrom mem n a = some text) (more : n ≤ m) : stringFrom mem m a = some text := by
  induction n generalizing a text m with
  | zero => cases found
  | succ n ih =>
    obtain ⟨m, rfl⟩ : ∃ k, m = k + 1 := ⟨m - 1, by omega⟩
    rw [stringFrom] at found ⊢
    split at found
    · rename_i zero
      rw [if_pos zero]
      exact found
    · rename_i nonzero
      obtain ⟨rest, tail, rfl⟩ := Option.map_eq_some_iff.mp found
      rw [if_neg nonzero, ih tail (by omega)]
      rfl

theorem stringFrom_drop {mem : Word → Word} {n : Nat} {a : Word} (front : List Word)
    {rest : List Word}
    (found : stringFrom mem n a = some (front ++ rest)) :
    ∃ m, stringFrom mem m (a + BitVec.ofNat 16 front.length) = some rest := by
  induction front generalizing n a with
  | nil => exact ⟨n, by rw [List.length_nil, BitVec.add_zero]; exact found⟩
  | cons c front ih =>
    cases n with
    | zero => cases found
    | succ n =>
      rw [stringFrom] at found
      split at found
      · cases found
      · obtain ⟨tail, later, same⟩ := Option.map_eq_some_iff.mp found
        cases same
        obtain ⟨m, left⟩ := ih later
        refine ⟨m, ?_⟩
        rw [List.length_cons, Nat.add_comm, BitVec.ofNat_add, ← BitVec.add_assoc]
        exact left

theorem stringFrom_nil {mem : Word → Word} {n : Nat} {a : Word}
    (found : stringFrom mem n a = some []) : mem a = 0 := by
  cases n with
  | zero => cases found
  | succ n =>
    by_contra nonzero
    rw [stringFrom, if_neg nonzero] at found
    obtain ⟨tail, -, same⟩ := Option.map_eq_some_iff.mp found
    cases same

theorem stringFrom_cons {mem : Word → Word} {n : Nat} {a c : Word} {rest : List Word}
    (found : stringFrom mem n a = some (c :: rest)) : mem a = c ∧ c ≠ 0 := by
  cases n with
  | zero => cases found
  | succ n =>
    rw [stringFrom] at found
    split at found
    · cases found
    · rename_i nonzero
      obtain ⟨tail, -, same⟩ := Option.map_eq_some_iff.mp found
      cases same
      exact ⟨rfl, nonzero⟩

/-- The memory ends after so many words. -/
def stringAt (mem : Word → Word) (a : Word) : Option (List Word) := stringFrom mem 0x10000 a

def character (w : Word) : Byte := w.setWidth 8

/-- The return from a service that printed and read something. -/
def State.back (os : Os) (s : State) (r0 : Word) (input output : List Byte) : State where
  machine := {
    reg := fun i => if i = 0 then r0 else if i = 7 then os.r7 s else s.machine.reg i
    mem := s.machine.mem
    last := os.last s }
  pc := s.pc + 1
  input := input
  output := output

/-- GETC waits where there is no character, and PUTS never ends where there is no zero. -/
def Service.effect (os : Os) (s : State) : Service → Option State
  | .getc => match s.input with
    | [] => none
    | c :: rest => some (s.back os (c.setWidth 16) rest s.output)
  | .out => some (s.back os (os.r0 s) s.input (s.output ++ [character (s.machine.reg 0)]))
  | .puts => (stringAt s.machine.mem (s.machine.reg 0)).map fun text =>
    s.back os (os.r0 s) s.input (s.output ++ text.map character)

/-- One instruction, with the address that its operand stands for. -/
def Inst.effect {T : Type} (os : Os) (address : T → Word) (s : State) : Inst T → Option State
  | .br n z p t => some { s with pc := if s.machine.takes n z p then address t else s.pc + 1 }
  | .trap service => service.effect os s
  | .ret => some { s with pc := s.machine.reg 7 }
  | i => some { s with machine := i.act address s.machine, pc := s.pc + 1 }

/-! Words. -/

/-- A signed operand in a field of that many bits. -/
def field (bits : Nat) (v : Int) : Option Nat :=
  if -2 ^ (bits - 1) ≤ v ∧ v < 2 ^ (bits - 1) then some (v % 2 ^ bits).toNat else none

/-- The signed operand in the low bits. -/
def operand (bits n : Nat) : Int :=
  let low := n % 2 ^ bits
  if low < 2 ^ (bits - 1) then low else low - 2 ^ bits

def Service.vector : Service → Nat
  | .getc => 0x20 | .out => 0x21 | .puts => 0x22

def flag (b : Bool) : Nat := if b then 1 else 0

def Inst.code : Inst Int → Option Nat
  | .add i j k => some (0x1000 + i * 512 + j * 64 + k)
  | .addImm i j v => (field 5 v).map fun v => 0x1000 + i * 512 + j * 64 + 32 + v
  | .and i j k => some (0x5000 + i * 512 + j * 64 + k)
  | .andImm i j v => (field 5 v).map fun v => 0x5000 + i * 512 + j * 64 + 32 + v
  | .not i j => some (0x9000 + i * 512 + j * 64 + 63)
  | .ldr i j v => (field 6 v).map fun v => 0x6000 + i * 512 + j * 64 + v
  | .str i j v => (field 6 v).map fun v => 0x7000 + i * 512 + j * 64 + v
  | .ld i v => (field 9 v).map fun v => 0x2000 + i * 512 + v
  | .lea i v => (field 9 v).map fun v => 0xe000 + i * 512 + v
  | .br n z p v => (field 9 v).map fun v => flag n * 2048 + flag z * 1024 + flag p * 512 + v
  | .trap service => some (0xf000 + service.vector)
  | .ret => some 0xc1c0

def regAt (n low : Nat) : Fin 8 := Fin.ofNat 8 (n / low)

/-- The instructions that the library uses. -/
def decode (n : Nat) : Option (Inst Int) :=
  match n / 4096 with
  | 0x0 => some (.br (n / 2048 % 2 = 1) (n / 1024 % 2 = 1) (n / 512 % 2 = 1) (operand 9 n))
  | 0x1 => some (if n / 32 % 2 = 1 then .addImm (regAt n 512) (regAt n 64) (operand 5 n)
      else .add (regAt n 512) (regAt n 64) (regAt n 1))
  | 0x2 => some (.ld (regAt n 512) (operand 9 n))
  | 0x5 => some (if n / 32 % 2 = 1 then .andImm (regAt n 512) (regAt n 64) (operand 5 n)
      else .and (regAt n 512) (regAt n 64) (regAt n 1))
  | 0x6 => some (.ldr (regAt n 512) (regAt n 64) (operand 6 n))
  | 0x7 => some (.str (regAt n 512) (regAt n 64) (operand 6 n))
  | 0x9 => some (.not (regAt n 512) (regAt n 64))
  | 0xc => if n = 0xc1c0 then some .ret else none
  | 0xe => some (.lea (regAt n 512) (operand 9 n))
  | 0xf => match n % 256 with
    | 0x20 => some (.trap .getc)
    | 0x21 => some (.trap .out)
    | 0x22 => some (.trap .puts)
    | _ => none
  | _ => none

/-- The machine fetches the word at the program counter. An offset counts from the word behind. -/
def step (os : Os) (s : State) : Option State :=
  (decode (s.machine.mem s.pc).toNat).bind fun i =>
    i.effect os (fun offset => s.pc + 1 + BitVec.ofInt 16 offset) s

section
variable {bits : Nat} {v : Int}

theorem field_some {f : Nat} (found : field bits v = some f) (wide : 0 < bits) :
    f < 2 ^ bits ∧ ∀ high, operand bits (high * 2 ^ bits + f) = v := by
  unfold field at found
  split at found
  · rename_i inside
    obtain ⟨k, rfl⟩ : ∃ k, bits = k + 1 := ⟨bits - 1, by omega⟩
    simp only [Nat.add_sub_cancel, Option.some.injEq] at inside found
    have double : (2 : Int) ^ (k + 1) = 2 * 2 ^ k := pow_succ' 2 k
    have double' : (2 : Nat) ^ (k + 1) = 2 * 2 ^ k := pow_succ' 2 k
    have cast : ((2 ^ k : Nat) : Int) = 2 ^ k := by simp
    have value : (f : Int) = if 0 ≤ v then v else v + 2 ^ (k + 1) := by
      rw [← found, double]
      split
      · rw [Int.emod_eq_of_lt (by omega) (by omega)]
        omega
      · rw [← Int.add_emod_right, Int.emod_eq_of_lt (by omega) (by omega)]
        omega
    have below : f < 2 ^ (k + 1) := by
      rw [double']
      rw [double] at value
      split at value <;> omega
    refine ⟨below, fun high => ?_⟩
    simp only [operand, Nat.add_sub_cancel]
    rw [Nat.add_comm, Nat.add_mul_mod_self_right, Nat.mod_eq_of_lt below]
    rw [double] at value ⊢
    split <;> split at value <;> omega
  · cases found

theorem registers (n op : Nat) (i j : Fin 8) (low : Nat)
    (same : n = op * 4096 + i * 512 + j * 64 + low) (below : low < 64) :
    n / 4096 = op ∧ regAt n 512 = i ∧ regAt n 64 = j := by
  subst same
  refine ⟨by omega, Fin.ext ?_, Fin.ext ?_⟩ <;> simp only [regAt, Fin.val_ofNat] <;> omega

theorem register (n op : Nat) (i : Fin 8) (low : Nat) (same : n = op * 4096 + i * 512 + low)
    (below : low < 512) :
    n / 4096 = op ∧ regAt n 512 = i := by
  subst same
  refine ⟨by omega, Fin.ext ?_⟩
  simp only [regAt, Fin.val_ofNat]
  omega

theorem operand_eq (n : Nat) {f : Nat} (found : field bits v = some f) (wide : 0 < bits)
    (high : Nat)
    (same : n = high * 2 ^ bits + f) : operand bits n = v :=
  same ▸ (field_some found wide).2 high

end

theorem decode_code {i : Inst Int} {n : Nat} (coded : i.code = some n) : decode n = some i := by
  cases i with
  | add i j k =>
    cases coded
    obtain ⟨op, first, second⟩ :=
      registers (0x1000 + i * 512 + j * 64 + k) 1 i j k (by omega) (by omega)
    have third : regAt (0x1000 + i * 512 + j * 64 + k) 1 = k := Fin.ext (by simp [regAt]; omega)
    have plain : (0x1000 + i * 512 + j * 64 + k : Nat) / 32 % 2 ≠ 1 := by omega
    simp only [decode, op, first, second, third, if_neg plain]
  | and i j k =>
    cases coded
    obtain ⟨op, first, second⟩ :=
      registers (0x5000 + i * 512 + j * 64 + k) 5 i j k (by omega) (by omega)
    have third : regAt (0x5000 + i * 512 + j * 64 + k) 1 = k := Fin.ext (by simp [regAt]; omega)
    have plain : (0x5000 + i * 512 + j * 64 + k : Nat) / 32 % 2 ≠ 1 := by omega
    simp only [decode, op, first, second, third, if_neg plain]
  | addImm i j v =>
    obtain ⟨f, found, rfl⟩ := Option.map_eq_some_iff.mp coded
    have below := (field_some found (by decide)).1
    obtain ⟨op, first, second⟩ :=
      registers (0x1000 + i * 512 + j * 64 + 32 + f) 1 i j (32 + f) (by omega) (by omega)
    have value := operand_eq (0x1000 + i * 512 + j * 64 + 32 + f) found (by decide)
      (0x80 + i * 16 + j * 2 + 1) (by omega)
    have flagged : (0x1000 + i * 512 + j * 64 + 32 + f : Nat) / 32 % 2 = 1 := by omega
    simp only [decode, op, first, second, value, if_pos flagged]
  | andImm i j v =>
    obtain ⟨f, found, rfl⟩ := Option.map_eq_some_iff.mp coded
    have below := (field_some found (by decide)).1
    obtain ⟨op, first, second⟩ :=
      registers (0x5000 + i * 512 + j * 64 + 32 + f) 5 i j (32 + f) (by omega) (by omega)
    have value := operand_eq (0x5000 + i * 512 + j * 64 + 32 + f) found (by decide)
      (0x280 + i * 16 + j * 2 + 1) (by omega)
    have flagged : (0x5000 + i * 512 + j * 64 + 32 + f : Nat) / 32 % 2 = 1 := by omega
    simp only [decode, op, first, second, value, if_pos flagged]
  | not i j =>
    cases coded
    obtain ⟨op, first, second⟩ :=
      registers (0x9000 + i * 512 + j * 64 + 63) 9 i j 63 (by omega) (by omega)
    simp only [decode, op, first, second]
  | ldr i j v =>
    obtain ⟨f, found, rfl⟩ := Option.map_eq_some_iff.mp coded
    have below := (field_some found (by decide)).1
    obtain ⟨op, first, second⟩ :=
      registers (0x6000 + i * 512 + j * 64 + f) 6 i j f (by omega) (by omega)
    have value := operand_eq (0x6000 + i * 512 + j * 64 + f) found (by decide) (0x180 + i * 8 + j)
      (by omega)
    simp only [decode, op, first, second, value]
  | str i j v =>
    obtain ⟨f, found, rfl⟩ := Option.map_eq_some_iff.mp coded
    have below := (field_some found (by decide)).1
    obtain ⟨op, first, second⟩ :=
      registers (0x7000 + i * 512 + j * 64 + f) 7 i j f (by omega) (by omega)
    have value := operand_eq (0x7000 + i * 512 + j * 64 + f) found (by decide) (0x1c0 + i * 8 + j)
      (by omega)
    simp only [decode, op, first, second, value]
  | ld i v =>
    obtain ⟨f, found, rfl⟩ := Option.map_eq_some_iff.mp coded
    have below := (field_some found (by decide)).1
    obtain ⟨op, first⟩ := register (0x2000 + i * 512 + f) 2 i f (by omega) (by omega)
    have value := operand_eq (0x2000 + i * 512 + f) found (by decide) (0x10 + i) (by omega)
    simp only [decode, op, first, value]
  | lea i v =>
    obtain ⟨f, found, rfl⟩ := Option.map_eq_some_iff.mp coded
    have below := (field_some found (by decide)).1
    obtain ⟨op, first⟩ := register (0xe000 + i * 512 + f) 14 i f (by omega) (by omega)
    have value := operand_eq (0xe000 + i * 512 + f) found (by decide) (0x70 + i) (by omega)
    simp only [decode, op, first, value]
  | br n z p v =>
    obtain ⟨f, found, rfl⟩ := Option.map_eq_some_iff.mp coded
    have below := (field_some found (by decide)).1
    have bits : ∀ b, flag b = if b then 1 else 0 := fun _ => rfl
    have value := operand_eq (flag n * 2048 + flag z * 1024 + flag p * 512 + f) found (by decide)
      (flag n * 4 + flag z * 2 + flag p) (by omega)
    have op : (flag n * 2048 + flag z * 1024 + flag p * 512 + f) / 4096 = 0 := by
      cases n <;> cases z <;> cases p <;> simp [bits] <;> omega
    have set : (flag n * 2048 + flag z * 1024 + flag p * 512 + f) / 2048 % 2 = flag n ∧
        (flag n * 2048 + flag z * 1024 + flag p * 512 + f) / 1024 % 2 = flag z ∧
        (flag n * 2048 + flag z * 1024 + flag p * 512 + f) / 512 % 2 = flag p := by
      cases n <;> cases z <;> cases p <;> simp [bits] <;> omega
    have read : ∀ b, decide (flag b = 1) = b := by decide
    simp only [decode, op, value, set, read]
  | trap service => cases service <;> cases coded <;> rfl
  | ret =>
    cases coded
    rfl

end LC3Tools.Stdio
