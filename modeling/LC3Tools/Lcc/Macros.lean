import LC3Tools.BitFields
import Mathlib.Computability.StateTransition
import Mathlib.Data.BitVec

/-! The lines that the instruction macros at the head of `lc3.md` print, and a machine
that executes a list of them: eight registers, a plain memory, and the value that set the
condition codes last. A label is a line of its own and takes no word. -/
namespace LC3Tools.Emit
open StateTransition

abbrev Word := BitVec 16

/-- The type suffix of a node. -/
inductive Suffix where
  | I | U
  deriving DecidableEq, Repr

inductive Line where
  | add (i j k : Fin 8)
  | addimm (i j : Fin 8) (k : Int)
  | and (i j k : Fin 8)
  | andimm (i j : Fin 8) (k : Int)
  | not (j : Fin 8)
  | load (i j : Fin 8) (k : Int)
  | store (i j : Fin 8) (k : Int)
  | lc3global (name : String) (i : Fin 8)
  | lab (i : Nat)
  | br (n z p : Bool) (i : Nat)
  /-- `BR #k`, `LD Ri, #k` and `.FILL #k`, for a constant that stands among the instructions. -/
  | skip (k : Int)
  | ld (i : Fin 8) (k : Int)
  | fill (k : Int)
  | jmp (i : Fin 8)
  | jsrr (i : Fin 8)
  deriving DecidableEq, Repr

def neg (j : Fin 8) : List Line := [.not j, .addimm j j 1]
def subNegk (i j k : Fin 8) : List Line := [.not k, .addimm k k 1, .add i j k]
def push (j : Fin 8) : List Line := [.addimm 6 6 (-1), .store j 6 0]
def pop (j : Fin 8) : List Line := [.load j 6 0, .addimm 6 6 1]

/-- The operand stands within its field. -/
def Line.Fits : Line → Prop
  | .addimm _ _ k | .andimm _ _ k => -16 ≤ k ∧ k ≤ 15
  | .load _ _ k | .store _ _ k => -32 ≤ k ∧ k ≤ 31
  | .skip k | .ld _ k => -256 ≤ k ∧ k ≤ 255
  | .fill k => -0x8000 ≤ k ∧ k ≤ 0xffff
  | _ => True

instance (line : Line) : Decidable line.Fits := by
  unfold Line.Fits
  split <;> infer_instance

@[ext] structure Machine where
  reg : Fin 8 → Word
  mem : Word → Word
  last : Word

namespace Machine

/-- An instruction that writes a register sets the condition codes by it. -/
def set (m : Machine) (i : Fin 8) (v : Word) : Machine :=
  { m with reg := fun j => if j = i then v else m.reg j, last := v }

def write (m : Machine) (a v : Word) : Machine :=
  { m with mem := fun b => if b = a then v else m.mem b }

def takes (m : Machine) (n z p : Bool) : Bool :=
  if m.last = 0 then z else if m.last.msb then n else p

section
variable (m : Machine) (i j : Fin 8) (a b v w : Word)

theorem set_reg : (m.set i v).reg j = if j = i then v else m.reg j := rfl
@[simp] theorem set_same : (m.set i v).reg i = v := by simp only [set_reg, if_true]
@[simp] theorem set_mem : (m.set i v).mem = m.mem := rfl
@[simp] theorem set_last : (m.set i v).last = v := rfl
@[simp] theorem write_reg : (m.write a v).reg = m.reg := rfl
@[simp] theorem write_last : (m.write a v).last = m.last := rfl
theorem write_mem : (m.write a v).mem b = if b = a then v else m.mem b := rfl
@[simp] theorem write_same : (m.write a v).mem a = v := by simp only [write_mem, if_true]

@[simp] theorem set_set : (m.set i v).set i w = m.set i w := by
  apply Machine.ext
  · funext k
    simp only [set_reg]
    split <;> rfl
  · rfl
  · rfl

end

end Machine

theorem takes_iff (m : Machine) (n z p : Bool) : m.takes n z p =
    ((n && decide (m.last.toInt < 0)) || (z && decide (m.last.toInt = 0)) ||
      (p && decide (0 < m.last.toInt))) := by
  have zero : m.last.toInt = 0 ↔ m.last = 0#16 := by
    rw [← BitVec.toInt_inj]
    rfl
  unfold Machine.takes
  by_cases none : m.last = 0#16
  · simp [none]
  · have nonzero : m.last.toInt ≠ 0 := fun h => none (zero.mp h)
    rw [BitVec.msb_eq_toInt]
    by_cases below : m.last.toInt < 0
    · simp [none, below, nonzero, Int.not_lt.mpr (Int.le_of_lt below)]
    · have above : 0 < m.last.toInt := by omega
      simp [none, below, nonzero, above]

section
variable (m : Machine)

@[simp] theorem takes_always : m.takes true true true = true := by
  unfold Machine.takes
  split <;> (try split) <;> rfl

@[simp] theorem takes_z : m.takes false true false = decide (m.last = 0#16) := by
  unfold Machine.takes
  by_cases zero : m.last = 0#16 <;> simp [zero]

@[simp] theorem takes_np : m.takes true false true = !decide (m.last = 0#16) := by
  unfold Machine.takes
  by_cases zero : m.last = 0#16 <;> simp [zero]

@[simp] theorem takes_n : m.takes true false false = m.last.msb := by
  unfold Machine.takes
  by_cases zero : m.last = 0#16 <;> simp [zero]

@[simp] theorem takes_zp : m.takes false true true = !m.last.msb := by
  unfold Machine.takes
  by_cases zero : m.last = 0#16 <;> simp [zero]

@[simp] theorem takes_p : m.takes false false true = (!decide (m.last = 0#16) && !m.last.msb) := by
  unfold Machine.takes
  by_cases zero : m.last = 0#16 <;> simp [zero]

end

/-- A global name stands for the address that the linker gives it. -/
def Line.effect (globals : String → Word) (m : Machine) : Line → Machine
  | .add i j k => m.set i (m.reg j + m.reg k)
  | .addimm i j k => m.set i (m.reg j + BitVec.ofInt 16 k)
  | .and i j k => m.set i (m.reg j &&& m.reg k)
  | .andimm i j k => m.set i (m.reg j &&& BitVec.ofInt 16 k)
  | .not j => m.set j (~~~ m.reg j)
  | .load i j k => m.set i (m.mem (m.reg j + BitVec.ofInt 16 k))
  | .store i j k => m.write (m.reg j + BitVec.ofInt 16 k) (m.reg i)
  | .lc3global name i => m.set i (globals name)
  | .lab _ | .br .. | .skip _ | .ld .. | .fill _ | .jmp _ | .jsrr _ => m

theorem neg_word (a : Word) : ~~~a + BitVec.ofInt 16 1 = -a := (BitVec.neg_eq_not_add a).symm

theorem plus_zero (a : Word) : a + BitVec.ofInt 16 0 = a := BitVec.add_zero a

theorem minus_one (a : Word) : a + BitVec.ofInt 16 (-1) = a - 1 := by
  rw [BitVec.sub_eq_add_neg]
  rfl

theorem ofNat_pred (k : Nat) : BitVec.ofNat 16 (k + 1) - 1 = BitVec.ofNat 16 k := by
  rw [BitVec.ofNat_add]
  exact BitVec.add_sub_cancel _ _

/-- Where the machine is: at a line of the code, or behind a jump out of it, to a label
that the code does not define or to an address in a register. -/
inductive Place where
  | line (k : Nat)
  | label (i : Nat)
  | address (a : Word)
  deriving DecidableEq

def target (code : List Line) (i : Nat) : Place :=
  match code.idxOf? (.lab i) with
  | some k => .line k
  | none => .label i

/-- An operand that counts from the line behind. No label stands between. -/
def near (k : Nat) (offset : Int) : Option Nat :=
  if 0 ≤ k + 1 + offset then some (k + 1 + offset).toNat else none

/-- One line. A constant is no instruction, and JSRR hands over to another function. -/
def step (globals : String → Word) (code : List Line) : Place × Machine → Option (Place × Machine)
  | (.line k, m) => (code[k]?).bind fun line => match line with
    | .br n z p i => some (if m.takes n z p then target code i else .line (k + 1), m)
    | .skip offset => (near k offset).map fun k' => (.line k', m)
    | .ld i offset => (near k offset).bind fun k' => match code[k']? with
      | some (.fill v) => some (.line (k + 1), m.set i (BitVec.ofInt 16 v))
      | _ => none
    | .jmp i => some (.address (m.reg i), m)
    | .fill _ | .jsrr _ => none
    | line => some (.line (k + 1), line.effect globals m)
  | _ => none

/-- From one place to the place where the code is left. -/
def Runs (globals : String → Word) (code : List Line) (c d : Place × Machine) : Prop :=
  d ∈ eval (step globals code) c

/-- From the first line to behind the last one. -/
def Executes (globals : String → Word) (code : List Line) (m m' : Machine) : Prop :=
  Runs globals code (.line 0, m) (.line code.length, m')

/-- A line that hands over to the next one, wherever it stands. -/
def Line.straight : Line → Bool
  | .br .. | .skip _ | .ld .. | .fill _ | .jmp _ | .jsrr _ => false
  | _ => true

/-- A straight line that is no label. -/
def Line.plain : Line → Bool
  | .lab _ => false
  | line => line.straight

def run (globals : String → Word) (code : List Line) (m : Machine) : Machine :=
  code.foldl (fun m line => line.effect globals m) m

section
variable {globals : String → Word} {m m' : Machine} {code : List Line}

@[simp] theorem run_nil : run globals [] m = m := rfl

@[simp] theorem run_cons (line : Line) (code : List Line) :
    run globals (line :: code) m = run globals code (line.effect globals m) := rfl

theorem run_append (c d : List Line) : run globals (c ++ d) m = run globals d (run globals c m) :=
  List.foldl_append

theorem getElem_behind (before behind : List Line) (k : Nat) :
    (before ++ behind)[before.length + k]? = behind[k]? := by
  rw [List.getElem?_append_right (Nat.le_add_right _ _), Nat.add_sub_cancel_left]

theorem target_first {i : Nat} (before behind : List Line) (fresh : .lab i ∉ before) :
    target (before ++ .lab i :: behind) i = .line before.length := by
  have found : (before ++ Line.lab i :: behind).idxOf? (.lab i) = some before.length := by
    rw [List.idxOf?_eq_some_iff]
    refine ⟨by simp, by simp, fun j less => ?_⟩
    rw [List.getElem_append_left less]
    exact fun same => fresh (same ▸ List.getElem_mem less)
  rw [target, found]

theorem no_label {code : List Line} (plain : code.all Line.plain) (i : Nat) : .lab i ∉ code :=
  fun mem => by cases List.all_eq_true.mp plain _ mem

theorem straight_of_plain {line : Line} (plain : line.plain) : line.straight := by
  cases line with
  | lab => cases plain
  | _ => exact plain

theorem all_straight {code : List Line} (plain : code.all Line.plain) : code.all Line.straight :=
  List.all_eq_true.mpr fun line mem => straight_of_plain (List.all_eq_true.mp plain line mem)

theorem step_straight {k : Nat} {line : Line} (there : code[k]? = some line)
    (straight : line.straight) :
    step globals code (.line k, m) = some (.line (k + 1), line.effect globals m) := by
  cases line with
  | br | skip | ld | fill | jmp | jsrr => cases straight
  | _ => simp only [step, there, Option.bind_some]

theorem step_br {k i : Nat} {n z p : Bool} (there : code[k]? = some (.br n z p i)) :
    step globals code (.line k, m) =
      some (if m.takes n z p then target code i else .line (k + 1), m) := by
  simp only [step, there, Option.bind_some]

theorem step_end : step globals code (.line code.length, m) = none := by
  simp only [step, List.getElem?_length, Option.bind_none]

theorem reaches_piece (k : Nat) (piece : List Line) (there : piece <+: code.drop k)
    (straight : piece.all Line.straight) :
    Reaches (step globals code) (.line k, m) (.line (k + piece.length), run globals piece m) := by
  induction piece generalizing k m with
  | nil => exact .refl
  | cons line piece ih =>
    obtain ⟨behind, split⟩ := there
    rw [List.all_cons, Bool.and_eq_true] at straight
    have first : code[k]? = some line := by
      have head := congrArg List.head? split
      rw [List.cons_append, List.head?_cons, List.head?_drop] at head
      exact head.symm
    have rest : piece <+: code.drop (k + 1) := by
      refine ⟨behind, ?_⟩
      rw [← List.drop_drop, ← split, List.cons_append, List.drop_one, List.tail_cons]
    have next : Reaches (step globals code) (.line (k + 1), line.effect globals m) _ :=
      ih (k + 1) rest straight.2
    rw [Nat.add_assoc, Nat.add_comm 1] at next
    exact .head (step_straight first straight.1) next

theorem reaches_br {k i : Nat} {n z p : Bool} (there : code[k]? = some (.br n z p i)) :
    Reaches (step globals code) (.line k, m)
      (if m.takes n z p then target code i else .line (k + 1), m) :=
  .single (step_br there)

theorem executes_of_reaches
    (reaches : Reaches (step globals code) (.line 0, m) (.line code.length, m')) :
    Executes globals code m m' :=
  mem_eval.mpr ⟨reaches, step_end⟩

theorem executes_straight (straight : code.all Line.straight) :
    Executes globals code m (run globals code m) := by
  have reaches : Reaches (step globals code) (.line 0, m)
    (.line (0 + code.length), run globals code m) :=
    reaches_piece 0 code (List.prefix_refl _) straight
  rw [Nat.zero_add] at reaches
  exact executes_of_reaches reaches

theorem Runs.unique {c d d' : Place × Machine} (runs : Runs globals code c d)
    (runs' : Runs globals code c d') : d = d' :=
  Part.mem_unique runs runs'

end

end LC3Tools.Emit
