import LC3Tools.Assembler.Labels

/-! What the scanner promises the code generator: the register operands of a statement
begin with a register, wherever `nextOperand` has to go to find them. -/
namespace LC3Tools.Assembler
open Flex Regex Pattern

/-- The operands as `generate_instruction` finds them. -/
def operand1 (opstr : List Byte) : List Byte := opstr.dropWhile isspace
def operand2 (opstr : List Byte) : List Byte := nextOperand (operand1 opstr)
def operand3 (opstr : List Byte) : List Byte := nextOperand (operand2 opstr)

/-- The buffer the generator reads a lexeme from. -/
def buffer (l : Lexeme Byte Action) : List Byte := l.text ++ 0 :: l.rest.tail

section scanned
variable {u v w sep blanks rest : List Byte} {r : Pattern}

theorem blank_space : ∀ x, isblank x → isspace x ∧ x ≠ byte ',' := by decide +kernel

theorem register_letter : ∀ x, tolower x = byte 'r' → isspace x = false ∧ x ≠ byte ',' := by
  decide +kernel

theorem register_digit : ∀ x, (byte '0' ≤ x && x ≤ byte '7') →
    isspace x = false ∧ x ≠ byte ',' ∧ ((x.signExtend 64) - 48).toNat < 8 := by
  decide +kernel

theorem isRegisterName_cons (named : isRegisterName u) :
    ∃ c d, u = [c, d] ∧ tolower c = byte 'r' ∧ (byte '0' ≤ d && d ≤ byte '7') := by
  match u, named with
  | [c, d], named =>
    obtain ⟨letter, digit⟩ := Bool.and_eq_true_iff.mp named
    exact ⟨c, d, rfl, of_decide_eq_true letter, digit⟩

theorem regDigit_small (named : isRegisterName u) : (regDigit (u ++ rest)).toNat < 8 := by
  obtain ⟨c, d, rfl, -, digit⟩ := isRegisterName_cons named
  exact (register_digit d digit).2.2

theorem skip_blanks (blank : ∀ x ∈ blanks, isblank x) :
    (blanks ++ rest).dropWhile isspace = rest.dropWhile isspace :=
  List.dropWhile_append_of_pos fun x inside => (blank_space x (blank x inside)).1

theorem stop_register (named : isRegisterName u) : (u ++ rest).dropWhile isspace = u ++ rest := by
  obtain ⟨c, d, rfl, letter, -⟩ := isRegisterName_cons named
  exact List.dropWhile_cons_of_neg (by simp [(register_letter c letter).1])

theorem matches_opSep : opSep.Matches sep ↔
    ∃ before x after, (∀ y ∈ before, isblank y) ∧ (x = byte ',' ∨ isblank x) ∧
      (∀ y ∈ after, isblank y) ∧ sep = before ++ x :: after := by
  unfold opSep
  rw [matches_seq]
  constructor
  · rintro ⟨before, tail, hbefore, htail, rfl⟩
    obtain ⟨one, after, ⟨x, mark, rfl⟩, hafter, rfl⟩ := matches_seq.mp htail
    have mark : x = byte ',' ∨ isblank x := by simpa using mark
    exact ⟨before, x, after, matches_star_char.mp hbefore, mark, matches_star_char.mp hafter, rfl⟩
  · rintro ⟨before, x, after, blank, mark, blank', rfl⟩
    refine ⟨before, x :: after, matches_star_char.mpr blank, ?_, rfl⟩
    exact matches_seq.mpr ⟨[x], after, ⟨x, by simpa using mark, rfl⟩,
      matches_star_char.mpr blank', rfl⟩

theorem nextOperand_behind (named : isRegisterName v) (separated : opSep.Matches sep)
    (start : ∀ d ∈ rest.head?, isspace d = false ∧ d ≠ byte ',') :
    nextOperand (v ++ (sep ++ rest)) = rest := by
  obtain ⟨c, d, rfl, letter, digit⟩ := isRegisterName_cons named
  obtain ⟨before, x, after, blank, mark, blank', rfl⟩ := matches_opSep.mp separated
  have first := register_letter c letter
  have second := register_digit d digit
  have stop : rest.dropWhile isspace = rest := by
    cases rest with
    | nil => rfl
    | cons e rest => exact List.dropWhile_cons_of_neg (by simp [(start e rfl).1])
  -- the register is skipped up to the separator
  have skipped : ([c, d] ++ ((before ++ x :: after) ++ rest)).dropWhile
      (fun y => y ≠ byte ',' && !isspace y) = (before ++ x :: after) ++ rest := by
    have all : ∀ y ∈ [c, d], (y ≠ byte ',' && !isspace y) = true := by
      simp [first, second.1, second.2.1]
    rw [List.dropWhile_append_of_pos all]
    cases before with
    | nil =>
      refine List.dropWhile_cons_of_neg ?_
      rcases mark with rfl | blank
      · simp
      · simp [(blank_space x blank).1]
    | cons y before =>
      refine List.dropWhile_cons_of_neg ?_
      simp [(blank_space y (blank y (List.mem_cons_self ..))).1]
  have ahead : ((before ++ x :: after) ++ rest).dropWhile isspace =
    (x :: (after ++ rest)).dropWhile isspace := by
    rw [List.append_assoc, skip_blanks blank, List.cons_append]
  simp only [nextOperand, skipped, ahead]
  by_cases comma : x = byte ','
  · subst comma
    have kept : (byte ',' :: (after ++ rest)).dropWhile isspace = byte ',' :: (after ++ rest) :=
      List.dropWhile_cons_of_neg (by decide)
    rw [kept, List.head?_cons, if_pos rfl, List.tail_cons, skip_blanks blank', stop]
  · have white : isspace x := (blank_space x (mark.resolve_left comma)).1
    have other : rest.head? ≠ some (byte ',') := fun head => (start _ head).2 rfl
    rw [List.dropWhile_cons_of_pos white, skip_blanks blank', stop, if_neg other, stop]

theorem nextOperand_register (named : isRegisterName v) (separated : opSep.Matches sep)
    (named' : isRegisterName u) : nextOperand (v ++ (sep ++ (u ++ rest))) = u ++ rest := by
  obtain ⟨e, f, rfl, letter, -⟩ := isRegisterName_cons named'
  refine nextOperand_behind named separated fun d head => ?_
  cases head
  exact register_letter e letter

theorem operand1_matches (matched : (Regex.seq (plus space) (.seq register r)).Matches w) :
    ∃ u rest, isRegisterName u ∧ r.Matches rest ∧
      ∀ more, operand1 (w ++ more) = u ++ (rest ++ more) := by
  obtain ⟨blanks, tail, hblanks, htail, rfl⟩ := matches_seq.mp matched
  obtain ⟨u, rest, hu, hrest, rfl⟩ := matches_seq.mp htail
  have named := matches_register.mp hu
  refine ⟨u, rest, named, hrest, ?_⟩
  intro more
  rw [operand1, List.append_assoc, skip_blanks (matches_plus_space.mp hblanks).2, List.append_assoc,
    stop_register named]

theorem operand_matches (matched : (Regex.seq opSep (.seq register r)).Matches w) :
    ∃ u rest, isRegisterName u ∧ r.Matches rest ∧
      ∀ v more, isRegisterName v → nextOperand (v ++ (w ++ more)) = u ++ (rest ++ more) := by
  obtain ⟨sep, tail, hsep, htail, rfl⟩ := matches_seq.mp matched
  obtain ⟨u, rest, hu, hrest, rfl⟩ := matches_seq.mp htail
  have named := matches_register.mp hu
  refine ⟨u, rest, named, hrest, ?_⟩
  intro v more before
  rw [List.append_assoc, List.append_assoc, nextOperand_register before hsep named]

end scanned

def generates : Action → Bool
  | .generate _ => true
  | _ => false

theorem generate_operands {cond : StartCondition} {rule : Rule Byte Action}
    (inside : rule ∈ rules cond) (generated : generates rule.token) : rule ∈ operandRules := by
  have other : ∀ rule ∈ initialRules ++ finishedRules, generates rule.token = false := by decide
  cases cond with
  | operands => exact inside
  | initial =>
    rw [other rule (List.mem_append_left _ inside)] at generated
    cases generated
  | finished =>
    rw [other rule (List.mem_append_right _ inside)] at generated
    cases generated
  | garbage =>
    cases List.mem_singleton.mp inside
    cases generated
  | debug stab =>
    cases List.mem_singleton.mp inside
    cases generated

theorem generate_matches {text : List Byte} {l : Lexeme Byte Action} {form : Operands}
    (inside : l ∈ yylex text) (token : l.token = .generate form) :
    ∃ rule ∈ operandRules, rule.token = .generate form ∧ rule.pattern.Matches l.text := by
  obtain ⟨cond, won⟩ := Scanner.lex_best scanner inside
  obtain ⟨rule, member, same, matched⟩ := best_wins won
  rw [token] at same
  have whole : (l.text ++ l.rest).take l.text.length = l.text := by simp
  rw [whole] at matched
  exact ⟨rule, generate_operands member (by rw [same]; rfl), same, matched⟩

/-- The register operands in front of an immediate or a label. -/
structure RegistersFit (form : Operands) (opstr : List Byte) : Prop where
  first : form = .RRI ∨ form = .RI ∨ form = .RL → (regDigit (operand1 opstr)).toNat < 8
  second : form = .RRI → (regDigit (operand2 opstr)).toNat < 8

theorem registersFit {text : List Byte} {l : Lexeme Byte Action} {form : Operands}
    (inside : l ∈ yylex text) (token : l.token = .generate form) :
      RegistersFit form (buffer l) := by
  obtain ⟨rule, member, same, matched⟩ := generate_matches inside token
  have one {r : Pattern} (matched : (Regex.seq (plus space) (.seq register r)).Matches l.text) :
      (regDigit (operand1 (buffer l))).toNat < 8 := by
    obtain ⟨u, rest, named, -, found⟩ := operand1_matches matched
    rw [buffer, found]
    exact regDigit_small named
  simp only [operandRules, List.mem_cons, List.not_mem_nil, or_false] at member
  rcases member with rfl | rfl | rfl | rfl | rfl | rfl | rfl | rfl | rfl | rfl | rfl | rfl <;>
    cases same
  case inr.inl =>
    refine ⟨fun _ => one matched, fun _ => ?_⟩
    obtain ⟨u, rest, named, hrest, found⟩ := operand1_matches matched
    obtain ⟨v, rest', named', -, found'⟩ := operand_matches hrest
    rw [operand2, buffer, found, found' u _ named]
    exact regDigit_small named'
  case inr.inr.inr.inl => exact ⟨fun _ => one matched, fun form => absurd form (by decide)⟩
  case inr.inr.inr.inr.inl => exact ⟨fun _ => one matched, fun form => absurd form (by decide)⟩
  all_goals exact ⟨fun form => absurd form (by decide), fun form => absurd form (by decide)⟩

end LC3Tools.Assembler
