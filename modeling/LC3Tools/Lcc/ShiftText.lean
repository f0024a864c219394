import LC3Tools.Assembler.Lines
import LC3Tools.Assembler.Numerals

/-! The shift rules of `lc3dtu.md`, which `lc3dtu_32bit.md` repeats, and how the
assembler's scanner reads the lines they print. -/
namespace LC3Tools.Lcc
open Flex Assembler Regex

inductive ShiftOp where
  | LSHI | LSHU | RSHI | RSHU
  deriving DecidableEq, Repr

/-- The second operand of a rule: a register, or a constant the `uc4` rules print. -/
inductive ShiftCount where
  | reg (n : Fin 8)
  | uc4 (a : Fin 16)
  deriving DecidableEq, Repr

/-- `range(a,0,15)`, the cost of the `uc4` rules: none is no match. -/
def uc4 (a : Nat) : Option ShiftCount := if h : a < 16 then some (.uc4 ⟨a, h⟩) else none

/-- The name `mkreg ("R%d", ...)` gives a register. -/
def regName (n : Fin 8) : List Byte := bytes "R" ++ decimal n

def ShiftOp.mnemonic : ShiftOp → String
  | .LSHI | .LSHU => "sll"
  | .RSHI | .RSHU => "sra"

/-- The operand, as `%1` or `#%1` prints it. -/
def ShiftCount.text : ShiftCount → List Byte
  | .reg n => regName n
  | .uc4 a => bytes "#" ++ decimal a

/-- From the blank behind the mnemonic to the end of the line, without the line feed. -/
def operandText (c s : Fin 8) (count : ShiftCount) : List Byte :=
  bytes " " ++ regName c ++ bytes ", " ++ regName s ++ bytes ", " ++ count.text

/-- `"sll %c, %0, #%1\n"` and the other templates. -/
def shiftText (op : ShiftOp) (c s : Fin 8) (count : ShiftCount) : List Byte :=
  bytes op.mnemonic ++ operandText c s count ++ [lineFeed]

/-- The operation code the assembler sees. -/
def ShiftOp.opcode : ShiftOp → Op
  | .LSHI | .LSHU => .SLL
  | .RSHI | .RSHU => .SRA

def ShiftCount.operands : ShiftCount → Operands
  | .reg _ => .RRR
  | .uc4 _ => .RRI

/-- No class of the rules for a statement tells the two characters apart. -/
def alike (a b : Byte) : Bool :=
  (initialRules ++ operandRules).all fun rule => rule.pattern.agree a b

theorem alike_refl (text : List Byte) : List.Forall₂ (alike · ·) text text := by
  induction text with
  | nil => exact .nil
  | cons a text ih => exact .cons (List.all_eq_true.mpr fun rule _ => Regex.agree_refl ..) ih

theorem alike_append {as bs cs ds : List Byte} (first : List.Forall₂ (alike · ·) as bs)
    (second : List.Forall₂ (alike · ·) cs ds) : List.Forall₂ (alike · ·) (as ++ cs) (bs ++ ds) :=
  List.rel_append first second

/-- A count that scans like the given one: a register, one digit, or two. -/
def ShiftCount.sample : ShiftCount → ShiftCount
  | .reg _ => .reg 0
  | .uc4 a => .uc4 (if a < 8 then 0 else if a < 10 then 8 else 10)

theorem regName_alike : ∀ n, List.Forall₂ (alike · ·) (regName n) (regName 0) := by
  decide +kernel

theorem uc4_alike : ∀ a, List.Forall₂ (alike · ·) (ShiftCount.uc4 a).text
    (ShiftCount.uc4 a).sample.text := by
  decide +kernel

theorem count_alike (count : ShiftCount) :
    List.Forall₂ (alike · ·) count.text count.sample.text := by
  cases count with
  | reg n => exact regName_alike n
  | uc4 a => exact uc4_alike a

theorem operandText_alike (c s : Fin 8) (count : ShiftCount) :
    List.Forall₂ (alike · ·) (operandText c s count) (operandText 0 0 count.sample) := by
  unfold operandText
  refine alike_append (alike_append (alike_append (alike_append (alike_append ?_ ?_) ?_) ?_) ?_) ?_
  · exact alike_refl _
  · exact regName_alike c
  · exact alike_refl _
  · exact regName_alike s
  · exact alike_refl _
  · exact count_alike count

theorem onLine_operandText (c s : Fin 8) (count : ShiftCount) : OnLine (operandText c s count) := by
  have blank : OnLine (bytes " ") := by decide
  have comma : OnLine (bytes ", ") := by decide
  have name (n : Fin 8) : OnLine (regName n) :=
    OnLine.append (by decide) (onLine_decimal n)
  have last : OnLine count.text := by
    cases count with
    | reg n => exact name n
    | uc4 a => exact OnLine.append (by decide) (onLine_decimal a)
  exact ((((blank.append (name c)).append comma).append (name s)).append comma).append last

theorem onLine_mnemonic (op : ShiftOp) : OnLine (bytes op.mnemonic) := by
  cases op <;> decide

theorem best_sample : ∀ op, ∀ count ∈ [ShiftCount.reg 0, .uc4 0, .uc4 8, .uc4 10],
    best (rules .initial) (bytes (ShiftOp.mnemonic op) ++ operandText 0 0 count ++ [lineFeed]) =
        some (.opcode op.opcode, 3) ∧
      best (rules .operands) (operandText 0 0 count ++ [lineFeed]) =
        some (.generate count.operands, (operandText 0 0 count).length + 1) := by
  intro op
  cases op <;> decide +kernel

theorem sample_mem (count : ShiftCount) :
    count.sample ∈ [ShiftCount.reg 0, .uc4 0, .uc4 8, .uc4 10] := by
  cases count with
  | reg n => simp [ShiftCount.sample]
  | uc4 a => revert a; decide

theorem sample_operands (count : ShiftCount) : count.sample.operands = count.operands := by
  cases count <;> rfl

theorem best_alike {cond : StartCondition} {as bs : List Byte}
    (statement : cond = .initial ∨ cond = .operands)
    (same : List.Forall₂ (alike · ·) as bs) : best (rules cond) as = best (rules cond) bs := by
  refine best_agree fun rule inside => same.imp fun a b agrees => ?_
  have member : rule ∈ initialRules ++ operandRules := by
    rcases statement with rfl | rfl
    · exact List.mem_append_left _ inside
    · exact List.mem_append_right _ inside
  exact List.all_eq_true.mp agrees rule member

theorem scans_shiftText (op : ShiftOp) (c s : Fin 8) (count : ShiftCount) {post : List Byte}
    (ends : post.head? ≠ some carriageReturn) :
    scanner.Scans post .initial (shiftText op c s count)
      [⟨.opcode op.opcode, bytes op.mnemonic, operandText c s count ++ [lineFeed] ++ post⟩,
        ⟨.generate count.operands, operandText c s count ++ [lineFeed], post⟩] .initial := by
  obtain ⟨first, second⟩ := best_sample op count.sample (sample_mem count)
  have operands := operandText_alike c s count
  have feed : List.Forall₂ (alike · ·) [lineFeed] [lineFeed] := alike_refl _
  have line := onLine_operandText c s count
  have three : (bytes op.mnemonic).length = 3 := by
    cases op <;> rfl
  have statement : best (rules .initial)
      (bytes op.mnemonic ++ (operandText c s count ++ [lineFeed] ++ post)) =
        some (.opcode op.opcode, (bytes op.mnemonic).length) := by
    have whole : bytes op.mnemonic ++ (operandText c s count ++ [lineFeed] ++ post) =
        (bytes op.mnemonic ++ operandText c s count) ++ lineFeed :: post := by simp
    rw [whole, best_firstLine (by simp) ⟨(onLine_mnemonic op).append line, ends⟩,
      best_alike (.inl rfl) (alike_append (alike_append (alike_refl _) operands) feed),
        first, three]
  have rest : best (rules .operands) (operandText c s count ++ [lineFeed] ++ post) =
      some (.generate count.operands, (operandText c s count ++ [lineFeed]).length) := by
    have whole : operandText c s count ++ [lineFeed] ++ post =
        operandText c s count ++ lineFeed :: post := by simp
    rw [whole, best_firstLine (by simp) ⟨line, ends⟩,
      best_alike (.inr rfl) (alike_append operands feed),
      second, sample_operands, List.length_append, operands.length_eq, List.length_singleton]
  rw [shiftText, List.append_assoc]
  refine scans_statement ?_ (by simp) statement rfl rest
  exact List.ne_nil_of_length_pos (by omega)

end LC3Tools.Lcc
