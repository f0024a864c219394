import LC3Tools.Assembler.Lexer
import LC3Tools.Assembler.Numerals
import LC3Tools.Flex.Prefix

/-! Lexemes and lines. Except for a string, which may run over the end of its line, no
rule looks past a line feed and the carriage return behind it. So a line without quotes
scans the same wherever it stands in a file. -/
namespace LC3Tools.Assembler
open Flex Regex Pattern

def lineFeed : Byte := byte '\n'
def carriageReturn : Byte := byte '\r'
def quote : Byte := byte '"'

/-- At most one line feed, and behind it at most a carriage return. -/
def Line (w : List Byte) : Prop :=
  ∃ body ending, w = body ++ ending ∧ lineFeed ∉ body ∧
    (ending = [] ∨ ending = [lineFeed] ∨ ending = [lineFeed, carriageReturn])

def OneLine (r : Pattern) : Prop := ∀ w, r.Matches w → Line w

theorem Line.prepend {u v : List Byte} (free : lineFeed ∉ u) (line : Line v) : Line (u ++ v) := by
  obtain ⟨body, ending, rfl, free', tail⟩ := line
  refine ⟨u ++ body, ending, (List.append_assoc ..).symm, ?_, tail⟩
  intro inside
  rcases List.mem_append.mp inside with inside | inside
  · exact free inside
  · exact free' inside

theorem line_of_free {w : List Byte} (free : lineFeed ∉ w) : Line w :=
  ⟨w, [], (List.append_nil w).symm, free, .inl rfl⟩

namespace OneLine
variable {r s : Pattern}

theorem of_avoids (avoided : r.avoids lineFeed) : OneLine r :=
  fun _ matched => line_of_free (notMem_of_avoids avoided matched)

theorem seq (avoided : r.avoids lineFeed) (rest : OneLine s) : OneLine (.seq r s) := by
  intro w matched
  obtain ⟨u, v, hu, hv, rfl⟩ := matches_seq.mp matched
  exact (rest v hv).prepend (notMem_of_avoids avoided hu)

theorem alt (first : OneLine r) (second : OneLine s) : OneLine (.alt r s) := by
  intro w matched
  rcases matches_alt.mp matched with matched | matched
  · exact first w matched
  · exact second w matched

end OneLine

theorem matches_lit_one {s : String} {c : Byte} (one : bytes s = [c])
    (caseless : ∀ b, tolower b = tolower c → b = c) {w : List Byte} :
    (lit s).Matches w ↔ w = [c] := by
  simp only [lit, one, List.foldr_cons, List.foldr_nil, matches_seq, matches_char, matches_epsilon]
  constructor
  · rintro ⟨u, v, ⟨a, same, rfl⟩, rfl, rfl⟩
    rw [caseless a (of_decide_eq_true same)]
    rfl
  · rintro rfl
    exact ⟨[c], [], ⟨c, by simp, rfl⟩, rfl, rfl⟩

theorem caseless (c : Byte) (other : isupper c = false)
    (above : isupper (c - 32) = false) : ∀ b, tolower b = tolower c → b = c := by
  intro b same
  simp only [tolower, other, Bool.false_eq_true, if_false] at same
  split at same
  · rename_i upper
    have back : b = c - 32 := by
      rw [← same]
      simp
    rw [back] at upper
    rw [above] at upper
    cases upper
  · exact same

theorem endline_oneLine : OneLine endline := by
  intro w matched
  obtain ⟨u, v, hu, hv, rfl⟩ := matches_seq.mp matched
  obtain ⟨cr, feeds, hcr, hfeeds, rfl⟩ := matches_seq.mp hv
  obtain ⟨nl, cr', hnl, hcr', rfl⟩ := matches_seq.mp hfeeds
  have feed : nl = [lineFeed] :=
    (matches_lit_one (by decide) (caseless _ (by decide) (by decide))).mp hnl
  have ending : Line (nl ++ cr') := by
    refine ⟨[], nl ++ cr', rfl, by simp, .inr ?_⟩
    rcases matches_alt.mp hcr' with none | one
    · exact .inl (by rw [feed, matches_epsilon.mp none]; rfl)
    · have back := (matches_lit_one (c := carriageReturn) (by decide)
        (caseless _ (by decide) (by decide))).mp one
      exact .inr (by rw [feed, back]; rfl)
  exact (ending.prepend (notMem_of_avoids (by decide) hcr)).prepend
    (notMem_of_avoids (by decide) hu)

theorem restline_oneLine : OneLine restline := .seq (by decide) endline_oneLine

theorem operands_oneLine : OneLine oRRR ∧ OneLine oRRI ∧ OneLine oRR ∧ OneLine oRI ∧
    OneLine oRL ∧ OneLine oR ∧ OneLine oI ∧ OneLine oL ∧ OneLine oUTS := by
  have line := endline_oneLine
  have step {r s : Pattern} (avoided : r.avoids lineFeed = true) (rest : OneLine s) :
      OneLine (.seq r s) := .seq avoided rest
  refine ⟨?_, ?_, ?_, ?_, ?_, ?_, ?_, ?_, ?_⟩ <;>
    repeat first | exact line | refine step (by decide) ?_

def strayPattern : Pattern :=
  .alt oRRR (.alt oRRI (.alt oRR (.alt oRI (.alt oRL (.alt oR (.alt oI (.alt oS oUTS)))))))

theorem initialRules_line : ∀ rule ∈ initialRules, rule.pattern.avoids lineFeed = true ∨
    rule.pattern = endline ∨ rule.pattern = strayPattern := by
  unfold initialRules
  repeat first
    | refine List.forall_mem_cons.mpr ⟨.inl (by decide +kernel), ?_⟩
    | refine List.forall_mem_cons.mpr ⟨.inr (.inl rfl), ?_⟩
    | refine List.forall_mem_cons.mpr ⟨.inr (.inr rfl), ?_⟩
  exact List.forall_mem_nil _

theorem rule_line (cond : StartCondition) (plain : ∀ stab, cond ≠ .debug stab)
    {rule : Rule Byte Action} (inside : rule ∈ rules cond) {w : List Byte}
    (matched : rule.pattern.Matches w) : Line w ∨ oS.Matches w := by
  obtain ⟨rrr, rri, rr, ri, rl, r, i, l, uts⟩ := operands_oneLine
  cases cond with
  | initial =>
    rcases initialRules_line rule inside with avoided | same | same
    · exact .inl (line_of_free (notMem_of_avoids avoided matched))
    · exact .inl (endline_oneLine w (same ▸ matched))
    · rw [same, strayPattern] at matched
      simp only [matches_alt] at matched
      rcases matched with h | h | h | h | h | h | h | h | h
      · exact .inl (rrr w h)
      · exact .inl (rri w h)
      · exact .inl (rr w h)
      · exact .inl (ri w h)
      · exact .inl (rl w h)
      · exact .inl (r w h)
      · exact .inl (i w h)
      · exact .inr h
      · exact .inl (uts w h)
  | operands =>
    simp only [rules, operandRules, List.mem_cons, List.not_mem_nil, or_false] at inside
    rcases inside with rfl | rfl | rfl | rfl | rfl | rfl | rfl | rfl | rfl | rfl | rfl | rfl
    · exact .inl (rrr w matched)
    · exact .inl (rri w matched)
    · exact .inl (rr w matched)
    · exact .inl (ri w matched)
    · exact .inl (rl w matched)
    · exact .inl (r w matched)
    · exact .inl (i w matched)
    · exact .inl (l w matched)
    · exact .inr matched
    · exact .inl (endline_oneLine w matched)
    · exact .inl (uts w matched)
    · exact .inl (restline_oneLine w matched)
  | garbage =>
    cases List.mem_singleton.mp inside
    exact .inl (restline_oneLine w matched)
  | finished =>
    have empty : OneLine emptyline := .of_avoids (by decide)
    simp only [rules, finishedRules, List.mem_cons, List.not_mem_nil, or_false] at inside
    rcases inside with rfl | rfl
    · exact .inl (endline_oneLine.alt empty w matched)
    · exact .inl ((endline_oneLine.alt empty).seq (by decide) w matched)
  | debug stab => exact absurd rfl (plain stab)

theorem matches_lit {s : String} {w : List Byte} :
    (lit s).Matches w ↔ w.map tolower = (bytes s).map tolower := by
  unfold lit
  induction bytes s generalizing w with
  | nil => simp
  | cons c cs ih =>
    simp only [List.foldr_cons, matches_seq, matches_char, List.map_cons]
    constructor
    · rintro ⟨u, v, ⟨a, same, rfl⟩, rest, rfl⟩
      rw [List.singleton_append, List.map_cons, of_decide_eq_true same, ih.mp rest]
    · intro same
      cases w with
      | nil => cases same
      | cons a w =>
        obtain ⟨first, rest⟩ := List.cons.inj same
        exact ⟨[a], w, ⟨a, decide_eq_true first, rfl⟩, ih.mpr rest, rfl⟩

theorem oS_quote {w : List Byte} (matched : oS.Matches w) :
    ∃ blanks rest, w = blanks ++ quote :: rest ∧ lineFeed ∉ blanks := by
  obtain ⟨blanks, rest, hblanks, hrest, rfl⟩ := matches_seq.mp matched
  obtain ⟨text, tail, htext, -, rfl⟩ := matches_seq.mp hrest
  obtain ⟨opening, inner, hopening, -, rfl⟩ := matches_seq.mp htext
  have one : opening = [quote] :=
    (matches_lit_one (by decide) (caseless _ (by decide) (by decide))).mp hopening
  refine ⟨blanks, inner ++ tail, ?_, notMem_of_avoids (by decide) hblanks⟩
  rw [one]
  simp

/-- The characters of a statement without a string. -/
def OnLine (text : List Byte) : Prop := ∀ b ∈ text, b ≠ lineFeed ∧ b ≠ quote

instance (text : List Byte) : Decidable (OnLine text) := List.decidableBAll _ _

theorem OnLine.append {as bs : List Byte} (first : OnLine as) (second : OnLine bs) :
    OnLine (as ++ bs) := by
  intro b inside
  rcases List.mem_append.mp inside with inside | inside
  · exact first b inside
  · exact second b inside

theorem onLine_decimal (n : Nat) : OnLine (decimal n) := by
  intro b inside
  have digit := isdigit_decimal inside
  constructor <;> rintro rfl <;> exact absurd digit (by decide)

/-- The first line of the rest of a file, and what stands behind it. -/
structure FirstLine (body post : List Byte) : Prop where
  line : OnLine body
  ends : post.head? ≠ some carriageReturn

theorem line_within {body post w : List Byte} {m : Nat} (ends : post.head? ≠ some carriageReturn)
    (bounded : m ≤ (body ++ lineFeed :: post).length)
    (same : (body ++ lineFeed :: post).take m = w) (short : Line w) : m ≤ body.length + 1 := by
  by_contra beyond
  obtain ⟨front, ending, rfl, free, tail⟩ := short
  have length : front.length + ending.length = m := by
    have := congrArg List.length same
    rw [List.length_take, Nat.min_eq_left bounded, List.length_append] at this
    exact this.symm
  have feed : (front ++ ending)[body.length]? = some lineFeed := by
    rw [← same, List.getElem?_take_of_lt (by omega)]
    simp
  have before : front.length ≤ body.length := by
    by_contra after
    rw [List.getElem?_append_left (by omega)] at feed
    exact free (List.mem_of_getElem? feed)
  rcases tail with rfl | rfl | rfl
  · simp at length
    omega
  · simp at length
    omega
  · -- the two characters of the ending are the line feed and what follows it
    simp only [List.length_cons, List.length_nil] at length
    have back : (front ++ [lineFeed, carriageReturn])[body.length + 1]? = some carriageReturn := by
      rw [List.getElem?_append_right (by omega)]
      have one : body.length + 1 - front.length = 1 := by omega
      rw [one]
      rfl
    rw [← same, List.getElem?_take_of_lt (by omega),
      List.getElem?_append_right (Nat.le_add_right _ _), Nat.add_sub_cancel_left] at back
    refine ends ?_
    rw [List.head?_eq_getElem?]
    simpa using back

theorem string_within {body post w : List Byte} {m : Nat} (line : FirstLine body post)
    (same : (body ++ lineFeed :: post).take m = w) (string : oS.Matches w) : False := by
  obtain ⟨blanks, rest, rfl, free⟩ := oS_quote string
  have inside : blanks.length < m := by
    have := congrArg List.length same
    simp only [List.length_take, List.length_append, List.length_cons] at this
    omega
  have opening : (body ++ lineFeed :: post)[blanks.length]? = some quote := by
    rw [← List.getElem?_take_of_lt inside, same]
    simp
  rcases Nat.lt_trichotomy blanks.length body.length with less | equal | more
  · rw [List.getElem?_append_left less] at opening
    exact (line.line _ (List.mem_of_getElem? opening)).2 rfl
  · rw [List.getElem?_append_right (Nat.le_of_eq equal.symm), equal] at opening
    simp [lineFeed, quote] at opening
    exact absurd opening (by decide)
  · have feed : (blanks ++ quote :: rest)[body.length]? = some lineFeed := by
      rw [← same, List.getElem?_take_of_lt (by omega)]
      simp
    rw [List.getElem?_append_left more] at feed
    exact free (List.mem_of_getElem? feed)

theorem firstLine_within (cond : StartCondition) {body post : List Byte}
    (plain : ∀ stab, cond ≠ .debug stab) (line : FirstLine body post) :
    Within (rules cond) (body ++ lineFeed :: post) (body.length + 1) := by
  intro rule inside m bounded matched
  rcases rule_line cond plain inside matched with short | string
  · exact line_within line.ends bounded rfl short
  · exact (string_within line rfl string).elim

theorem best_firstLine {cond : StartCondition} {body post : List Byte}
    (plain : ∀ stab, cond ≠ .debug stab) (line : FirstLine body post) :
    best (rules cond) (body ++ lineFeed :: post) = best (rules cond) (body ++ [lineFeed]) := by
  have split : body ++ lineFeed :: post = (body ++ [lineFeed]) ++ post := by simp
  rw [split]
  apply best_append
  rw [← split, List.length_append]
  exact firstLine_within cond plain line

theorem scans_statement {word operands post : List Byte} {op : Action} {form : Operands}
    (named : word ≠ []) (given : operands ≠ [])
    (won : best (rules .initial) (word ++ (operands ++ post)) = some (op, word.length))
    (begins : next .initial op = some .operands)
    (won' : best (rules .operands) (operands ++ post) =
      some (.generate form, operands.length)) :
    scanner.Scans post .initial (word ++ operands)
      [⟨op, word, operands ++ post⟩, ⟨.generate form, operands, post⟩] .initial := by
  have first : scanner.Scans (operands ++ post) .initial word
    [⟨op, word, operands ++ post⟩] .operands :=
    Scanner.Scans.one named won begins
  have second : scanner.Scans post .operands operands [⟨.generate form, operands, post⟩] .initial :=
    Scanner.Scans.one given won' rfl
  exact first.append second

end LC3Tools.Assembler
