import LC3Tools.Lcc.Macros

/-! The conditional branches of `emit2`: the sign of a difference that has wrapped. -/
namespace LC3Tools.Emit
open StateTransition

inductive Comparison where
  | EQ | NE | GT | GE | LT | LE
  deriving DecidableEq, Repr

/-- How an operand is read in a node of the suffix. -/
def Suffix.value : Suffix → Word → Int
  | .I, v => v.toInt
  | .U, v => v.toNat

def Comparison.holds : Comparison → Int → Int → Prop
  | .EQ, a, b => a = b
  | .NE, a, b => a ≠ b
  | .GT, a, b => b < a
  | .GE, a, b => b ≤ a
  | .LT, a, b => a < b
  | .LE, a, b => a ≤ b

instance : (op : Comparison) → (a b : Int) → Decidable (op.holds a b)
  | .EQ, a, b => inferInstanceAs (Decidable (a = b))
  | .NE, a, b => inferInstanceAs (Decidable (a ≠ b))
  | .GT, a, b => inferInstanceAs (Decidable (b < a))
  | .GE, a, b => inferInstanceAs (Decidable (b ≤ a))
  | .LT, a, b => inferInstanceAs (Decidable (a < b))
  | .LE, a, b => inferInstanceAs (Decidable (a ≤ b))

/-- The branch over the jump, where R7 holds the right operand less the left one. -/
def overLeftIn7 (label : Nat) : Comparison → Line
  | .NE => .br false true false label
  | .EQ => .br true false true label
  | .GT => .br false true true label
  | .GE => .br false false true label
  | .LT => .br true true false label
  | .LE => .br true false false label

/-- The same where R7 holds the left operand less the right one. -/
def overLeft (label : Nat) : Comparison → Line
  | .NE => .br false true false label
  | .EQ => .br true false true label
  | .GT => .br true true false label
  | .GE => .br true false false label
  | .LT => .br false true true label
  | .LE => .br false false true label

/-- The cases GT+I to NE+U. Both suffixes share the code. -/
def emitCompare (op : Comparison) (y z : Fin 8) (label : Nat) (name : String) : List Line :=
  (if y = 7 then neg 7 ++ [.add 7 7 z, overLeftIn7 label op]
   else (if z ≠ 7 then [.addimm 7 z 0] else []) ++ neg 7 ++ [.add 7 7 y, overLeft label op]) ++
    [.lc3global name 7, .load 7 7 0, .jmp 7, .lab label]

/-- The jump is made if and only if the comparison holds, no register but R7 changes, and
no memory. The label of the jump stands in the global word of its name. -/
def Decides (globals : String → Word) (op : Comparison) (suffix : Suffix) (y z : Fin 8)
    (label : Nat)
    (name : String) (m : Machine) : Prop :=
  ∃ place m', Runs globals (emitCompare op y z label name) (.line 0, m) (place, m') ∧
    (place = .address (m.mem (globals name)) ∨
      place = .line (emitCompare op y z label name).length) ∧
    (place = .address (m.mem (globals name)) ↔
      op.holds (suffix.value (m.reg y)) (suffix.value (m.reg z))) ∧
    (∀ i, i ≠ 7 → m'.reg i = m.reg i) ∧ m'.mem = m.mem

/-- What R7 holds at the branch. -/
def difference (y z : Fin 8) (m : Machine) : Word :=
  if y = 7 then -m.reg 7 + (if z = 7 then -m.reg 7 else m.reg z) else m.reg y - m.reg z

/-- The lines up to the branch. -/
def subtract (y z : Fin 8) : List Line :=
  if y = 7 then neg 7 ++ [.add 7 7 z]
  else (if z ≠ 7 then [.addimm 7 z 0] else []) ++ neg 7 ++ [.add 7 7 y]

def overJump (op : Comparison) (y : Fin 8) (label : Nat) : Line :=
  if y = 7 then overLeftIn7 label op else overLeft label op

section
variable {globals : String → Word} {m : Machine} {y z : Fin 8}

theorem emitCompare_eq (op : Comparison) (y z : Fin 8) (label : Nat) (name : String) :
    emitCompare op y z label name =
      subtract y z ++ [overJump op y label, .lc3global name 7, .load 7 7 0, .jmp 7,
        .lab label] := by
  unfold emitCompare subtract overJump
  split <;> simp [neg]

theorem subtract_plain (y z : Fin 8) : (subtract y z).all Line.plain := by
  unfold subtract
  split
  · rfl
  · split <;> rfl

theorem run_subtract (y z : Fin 8) (m : Machine) :
    run globals (subtract y z) m = m.set 7 (difference y z m) := by
  unfold subtract difference
  by_cases left : y = 7
  · subst left
    simp only [if_true, neg, List.cons_append, List.nil_append, run_cons, run_nil, Line.effect,
      Machine.set_set, Machine.set_same, neg_word, Machine.set_reg]
  · by_cases right : z = 7
    · subst right
      simp only [if_neg left, ne_eq, not_true_eq_false, if_false, neg, List.cons_append,
        List.nil_append, run_cons, run_nil, Line.effect, Machine.set_set, Machine.set_same,
          neg_word,
        Machine.set_reg, if_true, BitVec.add_comm (-_), BitVec.sub_eq_add_neg]
    · simp only [if_neg left, ne_eq, right, not_false_eq_true, if_true, neg, List.cons_append,
        List.nil_append, run_cons, run_nil, Line.effect, Machine.set_set, Machine.set_same,
          neg_word,
        Machine.set_reg, plus_zero, BitVec.add_comm (-_), BitVec.sub_eq_add_neg]

/-- What the branch tests of the difference. -/
def Comparison.decided (op : Comparison) (y : Fin 8) (d : Int) : Prop :=
  if y = 7 then op.holds 0 d else op.holds d 0

theorem overJump_taken (op : Comparison) (y : Fin 8) (label : Nat) (m : Machine) :
    ∃ n z p, overJump op y label = .br n z p label ∧
      (m.takes n z p = false ↔ op.decided y m.last.toInt) := by
  unfold overJump Comparison.decided
  by_cases left : y = 7
  · simp only [if_pos left]
    cases op <;> refine ⟨_, _, _, rfl, ?_⟩ <;> simp [takes_iff, Comparison.holds] <;> omega
  · simp only [if_neg left]
    cases op <;> refine ⟨_, _, _, rfl, ?_⟩ <;> simp [takes_iff, Comparison.holds] <;> omega

theorem compare_runs (globals : String → Word) (op : Comparison) (y z : Fin 8) (label : Nat)
    (name : String) (m : Machine) :
    (op.decided y (difference y z m).toInt →
      Runs globals (emitCompare op y z label name) (.line 0, m)
        (.address (m.mem (globals name)), m.set 7 (m.mem (globals name)))) ∧
    (¬ op.decided y (difference y z m).toInt →
      Runs globals (emitCompare op y z label name) (.line 0, m)
        (.line (emitCompare op y z label name).length, m.set 7 (difference y z m))) := by
  rw [emitCompare_eq]
  obtain ⟨n, eq, p, branch, test⟩ := overJump_taken op y label (m.set 7 (difference y z m))
  rw [Machine.set_last] at test
  rw [branch]
  generalize whole : subtract y z ++
    [.br n eq p label, .lc3global name 7, .load 7 7 0, .jmp 7, .lab label] = code
  have lead : Reaches (step globals code) (.line 0, m)
      (.line (0 + (subtract y z).length), run globals (subtract y z) m) :=
    reaches_piece 0 (subtract y z) ⟨_, whole⟩ (all_straight (subtract_plain y z))
  rw [Nat.zero_add, run_subtract] at lead
  have there : code[(subtract y z).length]? = some (.br n eq p label) := by
    rw [← whole]
    exact getElem_behind _ _ 0
  have branched : Reaches (step globals code)
    (.line (subtract y z).length, m.set 7 (difference y z m))
      (if (m.set 7 (difference y z m)).takes n eq p then Emit.target code label
        else .line ((subtract y z).length + 1), m.set 7 (difference y z m)) := reaches_br there
  refine ⟨fun holds => mem_eval.mpr ⟨(lead.trans branched).trans ?_, rfl⟩,
    fun fails => mem_eval.mpr ⟨(lead.trans branched).trans ?_, step_end⟩⟩
  · have jump : [Line.lc3global name 7, .load 7 7 0] <+: code.drop ((subtract y z).length + 1) :=
      ⟨[.jmp 7, .lab label], by rw [← whole]; simp⟩
    have last : code[(subtract y z).length + 1 + 2]? = some (.jmp 7) := by
      rw [← whole, Nat.add_assoc, getElem_behind]
      rfl
    rw [test.mpr holds]
    refine (reaches_piece _ _ jump rfl).tail ?_
    simp [step, last, Line.effect]
  · have taken : (m.set 7 (difference y z m)).takes n eq p = true := by
      rw [← Bool.not_eq_false]
      exact fun h => fails (test.mp h)
    have fresh : .lab label ∉ subtract y z ++
        [.br n eq p label, .lc3global name 7, .load 7 7 0, .jmp 7] := by
      simp [no_label (subtract_plain y z) label]
    have found : Emit.target code label = .line ((subtract y z).length + 4) := by
      have first := target_first _ [] fresh
      rw [List.append_assoc, List.length_append] at first
      rw [← whole]
      exact first
    rw [taken, if_pos rfl, found]
    have final : [Line.lab label] <+: code.drop ((subtract y z).length + 4) :=
      ⟨[], by rw [← whole]; simp⟩
    have length : code.length = (subtract y z).length + 4 + 1 := by
      rw [← whole]
      simp
    rw [length]
    exact reaches_piece _ _ final rfl

def SignedWord (d : Int) : Prop := -0x8000 ≤ d ∧ d ≤ 0x7fff

/-- The pairs of values on which the branch is right: any pair for equality, and for the
order those whose difference, taken in the direction of the code, is a signed word. Where
both operands are in R7 the code compares twice the negated value with zero. -/
def Comparison.Sound (op : Comparison) (suffix : Suffix) (y z : Fin 8) (a b : Word) : Prop :=
  if y = 7 ∧ z = 7 then
    match op with
    | .EQ | .NE => a.toInt = 0 ∨ a.toInt = -0x8000
    | .LT | .GE => ¬ (-0x4000 < a.toInt ∧ a.toInt < 0 ∨ 0x4000 < a.toInt)
    | .GT | .LE => ¬ (-0x8000 < a.toInt ∧ a.toInt ≤ -0x4000 ∨ 0 < a.toInt ∧ a.toInt ≤ 0x4000)
  else
    match op with
    | .EQ | .NE => True
    | _ => SignedWord
      (if y = 7 then suffix.value b - suffix.value a else suffix.value a - suffix.value b)

/-- A difference of two values of a suffix, wrapped, has the sign of the true one exactly
where it is a signed word. -/
theorem value_sub (suffix : Suffix) (a b : Word) :
    (a - b).toInt = (suffix.value a - suffix.value b).bmod (2 ^ 16) := by
  cases suffix with
  | I => exact BitVec.toInt_sub
  | U =>
    rw [BitVec.toInt_sub, BitVec.toInt_eq_toNat_bmod, BitVec.toInt_eq_toNat_bmod]
    simp [Suffix.value]

theorem value_bounds (suffix : Suffix) (a b : Word) :
    -0x10000 < suffix.value a - suffix.value b ∧ suffix.value a - suffix.value b < 0x10000 := by
  cases suffix with
  | I =>
    have ha := BitVec.toInt_lt (x := a)
    have hb := BitVec.toInt_lt (x := b)
    have la := BitVec.le_toInt (x := a)
    have lb := BitVec.le_toInt (x := b)
    simp only [Suffix.value]
    omega
  | U =>
    have ha := a.isLt
    have hb := b.isLt
    simp only [Suffix.value]
    omega

theorem wrapped_sign {d : Int} (low : -0x10000 < d) (high : d < 0x10000) :
    (d.bmod (2 ^ 16) = 0 ↔ d = 0) ∧
    ((d.bmod (2 ^ 16) < 0 ↔ d < 0) ↔ SignedWord d) ∧
    ((0 < d.bmod (2 ^ 16) ↔ 0 < d) ↔ SignedWord d) := by
  have value : d.bmod (2 ^ 16) =
      if d < -0x8000 then d + 0x10000 else if d ≤ 0x7fff then d else d - 0x10000 := by
    rw [Int.bmod_def]
    split <;> split <;> (try split) <;> omega
  rw [value]
  unfold SignedWord
  split
  · omega
  · split <;> omega

theorem decided_twice (op : Comparison) (suffix : Suffix) (a : Word) :
    (op.decided 7 (-a + -a).toInt ↔ op.holds (suffix.value a) (suffix.value a)) ↔
      op.Sound suffix 7 7 a a := by
  have value : (-a + -a).toInt = (-2 * a.toInt).bmod (2 ^ 16) := by
    rw [BitVec.toInt_add, BitVec.toInt_neg, Int.bmod_add_bmod, Int.add_bmod_bmod]
    congr 1
    omega
  have high := BitVec.toInt_lt (x := a)
  have low := BitVec.le_toInt (x := a)
  have wrapped : (-2 * a.toInt).bmod (2 ^ 16) = if a.toInt ≤ -0x4000 then -2 * a.toInt - 0x10000
      else if a.toInt ≤ 0x4000 then -2 * a.toInt else -2 * a.toInt + 0x10000 := by
    rw [Int.bmod_def]
    split <;> split <;> (try split) <;> omega
  unfold Comparison.Sound Comparison.decided
  rw [value, wrapped]
  cases op <;> simp [Comparison.holds] <;> split <;> (try split) <;> omega

theorem decided_iff (op : Comparison) (suffix : Suffix) (y z : Fin 8) (m : Machine) :
    (op.decided y (difference y z m).toInt ↔
      op.holds (suffix.value (m.reg y)) (suffix.value (m.reg z))) ↔
      op.Sound suffix y z (m.reg y) (m.reg z) := by
  by_cases both : y = 7 ∧ z = 7
  · obtain ⟨rfl, rfl⟩ := both
    exact decided_twice op suffix (m.reg 7)
  · have bounds := value_bounds suffix (m.reg y) (m.reg z)
    have other := value_bounds suffix (m.reg z) (m.reg y)
    unfold Comparison.decided Comparison.Sound
    by_cases left : y = 7
    · have right : z ≠ 7 := fun h => both ⟨left, h⟩
      have sub : (difference y z m).toInt =
          (suffix.value (m.reg z) - suffix.value (m.reg y)).bmod (2 ^ 16) := by
        rw [difference, if_pos left, if_neg right, ← value_sub, ← left, BitVec.add_comm,
          BitVec.sub_eq_add_neg]
      obtain ⟨zero, below, above⟩ := wrapped_sign other.1 other.2
      rw [sub, if_pos left, if_neg both, if_pos left]
      generalize suffix.value (m.reg y) = p at *
      generalize suffix.value (m.reg z) = q at *
      generalize (q - p).bmod (2 ^ 16) = d at *
      cases op with
      | EQ | NE => simp only [Comparison.holds, iff_true]; omega
      | GT | LE => simp only [Comparison.holds, ← below]; omega
      | LT | GE => simp only [Comparison.holds, ← above]; omega
    · have sub : (difference y z m).toInt =
          (suffix.value (m.reg y) - suffix.value (m.reg z)).bmod (2 ^ 16) := by
        rw [difference, if_neg left, value_sub]
      obtain ⟨zero, below, above⟩ := wrapped_sign bounds.1 bounds.2
      rw [sub, if_neg left, if_neg both, if_neg left]
      generalize suffix.value (m.reg y) = p at *
      generalize suffix.value (m.reg z) = q at *
      generalize (p - q).bmod (2 ^ 16) = d at *
      cases op with
      | EQ | NE => simp only [Comparison.holds, iff_true]; omega
      | GT | LE => simp only [Comparison.holds, ← above]; omega
      | LT | GE => simp only [Comparison.holds, ← below]; omega

/-- The branch runs one way only, so it is right when its test says what the comparison says. -/
theorem decides_iff (op : Comparison) (suffix : Suffix) (y z : Fin 8) (label : Nat)
    (name : String) (m : Machine) :
    Decides globals op suffix y z label name m ↔
      (op.decided y (difference y z m).toInt ↔
        op.holds (suffix.value (m.reg y)) (suffix.value (m.reg z))) := by
  obtain ⟨jumps, falls⟩ := compare_runs globals op y z label name m
  constructor
  · rintro ⟨place, m', runs, -, iff_holds, -, -⟩
    rw [← iff_holds]
    constructor
    · intro decided
      exact congrArg Prod.fst (runs.unique (jumps decided))
    · intro there
      by_contra other
      have behind := congrArg Prod.fst (runs.unique (falls other))
      rw [there] at behind
      cases behind
  · intro same
    have kept (v : Word) : ∀ i, i ≠ 7 → (m.set 7 v).reg i = m.reg i :=
      fun i other => by rw [Machine.set_reg, if_neg other]
    by_cases decided : op.decided y (difference y z m).toInt
    · exact ⟨_, _, jumps decided, .inl rfl, ⟨fun _ => same.mp decided, fun _ => rfl⟩, kept _, rfl⟩
    · refine ⟨_, _, falls decided, .inr rfl, ⟨fun there => ?_, fun holds => ?_⟩, kept _, rfl⟩
      · cases there
      · exact absurd (same.mpr holds) decided

/-- Exactly on these pairs the emitted branch decides the comparison. -/
theorem branch_decides_iff (op : Comparison) (suffix : Suffix) (y z : Fin 8) (label : Nat)
    (name : String) (m : Machine) :
    Decides globals op suffix y z label name m ↔ op.Sound suffix y z (m.reg y) (m.reg z) :=
  (decides_iff op suffix y z label name m).trans (decided_iff op suffix y z m)

end

/-- -32768 in R0 and 1 in R1: the difference wraps to 32767. -/
def farApart : Machine := ⟨fun i => if i = 0 then 0x8000 else 1, fun _ => 0, 0⟩

theorem less_not_taken : ¬ Decides (fun _ => 0) .LT .I 0 1 0 "L1" farApart ∧
    Comparison.holds .LT (Suffix.I.value (farApart.reg 0)) (Suffix.I.value (farApart.reg 1)) := by
  have less : Comparison.holds .LT (Suffix.I.value (farApart.reg 0))
    (Suffix.I.value (farApart.reg 1)) := by
    decide +kernel
  have tested : ¬ Comparison.decided .LT 0 (difference 0 1 farApart).toInt := by
    unfold Comparison.decided
    decide +kernel
  exact ⟨fun decides => tested (((decides_iff _ _ _ _ _ _ _).mp decides).mpr less), less⟩

end LC3Tools.Emit
