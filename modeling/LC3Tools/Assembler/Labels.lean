import LC3Tools.Assembler.Names
import LC3Tools.Assembler.TwoPasses

/-! Where the labels of a file come from: a word that is spelled like an operation never
begins one. -/
namespace LC3Tools.Assembler
open Flex Regex Pattern

variable {b : Build}

/-- The rules of the scanner in front of the label. -/
def earlierRules : List (Rule Byte Action) := initialRules.take 43

def laterRules : List (Rule Byte Action) :=
  [⟨.label, Pattern.label⟩, ⟨.label, .seq Pattern.label (.seq (.star space) (lit ":"))⟩,
    ⟨.strayOperands, strayPattern⟩, ⟨.beginGarbage, any⟩]

theorem initialRules_split : initialRules = earlierRules ++ laterRules := rfl

theorem earlierRules_other : ∀ rule ∈ earlierRules, rule.token ≠ .label := by decide

/-- An operation, in the spelling of the scanner. -/
def isKeyword (name : List Byte) : Prop := ∃ rule ∈ earlierRules, rule.pattern.Matches name

theorem matches_colon {w : List Byte} :
    (Regex.seq Pattern.label (.seq (.star space) (lit ":"))).Matches w ↔
      ∃ u blanks, isIdentifier u ∧ (∀ b ∈ blanks, isblank b) ∧ w = u ++ (blanks ++ [byte ':']) := by
  rw [matches_seq]
  constructor
  · rintro ⟨u, v, hu, hv, rfl⟩
    obtain ⟨blanks, colon, hblanks, hcolon, rfl⟩ := matches_seq.mp hv
    have one := (matches_lit_one (c := byte ':') (by decide)
      (caseless _ (by decide) (by decide))).mp hcolon
    exact ⟨u, blanks, matches_label.mp hu, matches_star_char.mp hblanks, by rw [one]⟩
  · rintro ⟨u, blanks, ident, blank, rfl⟩
    refine ⟨u, blanks ++ [byte ':'], matches_label.mpr ident, ?_, rfl⟩
    refine matches_seq.mpr ⟨blanks, [byte ':'], matches_star_char.mpr blank, ?_, rfl⟩
    exact (matches_lit_one (by decide) (caseless _ (by decide) (by decide))).mpr rfl

theorem label_initial {cond : StartCondition} {rule : Rule Byte Action} (inside : rule ∈ rules cond)
    (label : rule.token = .label) : cond = .initial := by
  have other : ∀ rule ∈ operandRules ++ finishedRules, rule.token ≠ .label := by decide
  cases cond with
  | initial => rfl
  | operands => exact absurd label (other rule (List.mem_append_left _ inside))
  | garbage =>
    cases List.mem_singleton.mp inside
    cases label
  | finished => exact absurd label (other rule (List.mem_append_right _ inside))
  | debug stab =>
    cases List.mem_singleton.mp inside
    cases label

theorem label_lexeme {text : List Byte} {l : Lexeme Byte Action} (inside : l ∈ yylex text)
    (label : l.token = .label) (bare : byte ':' ∉ l.text) :
    isIdentifier l.text ∧ ¬ isKeyword l.text := by
  obtain ⟨cond, won⟩ := Scanner.lex_best scanner inside
  rw [label] at won
  obtain ⟨rule, member, token, -⟩ := best_wins won
  have start := label_initial member token
  subst start
  change best initialRules _ = _ at won
  rw [initialRules_split] at won
  have whole : (l.text ++ l.rest).take l.text.length = l.text := by simp
  obtain ⟨later, missed⟩ := best_later earlierRules_other won
  rw [whole] at missed
  obtain ⟨winner, among, token', matched⟩ := best_wins later
  rw [whole] at matched
  refine ⟨?_, fun ⟨other, earlier, fits⟩ => missed other earlier fits⟩
  unfold laterRules at among
  simp only [List.mem_cons, List.not_mem_nil, or_false] at among
  rcases among with rfl | rfl | rfl | rfl
  · exact matches_label.mp matched
  · obtain ⟨u, blanks, -, -, same⟩ := matches_colon.mp matched
    exact absurd (by rw [same]; simp) bare
  · cases token'
  · cases token'

/-- What stands behind the label of a definition: the end of its line or a directive. -/
def LabelEnds (tail : List Byte) : Prop :=
  tail.head? = some lineFeed ∨ ∃ rest, tail = byte ' ' :: byte '.' :: rest

theorem LabelEnds.behind {tail : List Byte} (ends : LabelEnds tail) :
    ∃ x rest, tail = x :: rest ∧ isalnumbar x = false ∧ (x = lineFeed ∨ x = byte ' ') := by
  rcases ends with feed | ⟨rest, rfl⟩
  · cases tail with
    | nil => cases feed
    | cons x rest =>
      cases Option.some.inj feed
      exact ⟨lineFeed, rest, rfl, by decide, .inl rfl⟩
  · exact ⟨byte ' ', byte '.' :: rest, rfl, by decide, .inr rfl⟩

end LC3Tools.Assembler
