import LC3Tools.Lcc.Strings

/-! The loop of `.STRINGZ` against the token that the scanner gives it. The pattern lets a quote
behind any backslash stand inside the string; the loop takes a backslash that was escaped itself
for a character. -/
namespace LC3Tools.Lcc
open Assembler Flex Regex Pattern

def slash : Byte := byte '\\'

/-- The backslashes at the end of a text. -/
def slashes (w : List Byte) : Nat := (w.reverse.takeWhile (· = slash)).length

/-- Every quote has a backslash in front of it. -/
def Interior (w : List Byte) : Prop := ∀ front back, w = front ++ quote :: back → 0 < slashes front

/-- Every quote has an odd number of backslashes in front of it, and the quote behind the text an
even one. -/
structure Sealed (w : List Byte) : Prop where
  inside : ∀ front back, w = front ++ quote :: back → slashes front % 2 = 1
  behind : slashes w % 2 = 0

/-- The words that the loop of `.STRINGZ` writes in front of the zero, and the text behind the
quote it stops at. -/
def literal : List Byte → Option (List (BitVec 64) × List Byte)
  | [] => none
  | c :: cs =>
    if c = quote then some ([], cs)
    else if c = slash then
      match cs with
      | [] => none
      | e :: cs => (literal cs).map fun (words, rest) => (escape e :: words, rest)
    else if c = carriageReturn then
      match cs with
      | [] => none
      | d :: rest =>
        if d = lineFeed then (literal rest).map fun (words, rest) =>
          (d.signExtend 64 :: words, rest)
        else (literal (d :: rest)).map fun (words, rest) => (c.signExtend 64 :: words, rest)
    else (literal cs).map fun (words, rest) => (c.signExtend 64 :: words, rest)

/-- The loop stops in the token, at a quote with nothing but the end of the line behind it, and
from any state of the second pass writes the words of the literal and a zero, whatever stands
behind the token. -/
def Consumed (token : List Byte) : Prop :=
  ∃ words ending, literal (token.dropWhile isspace).tail = some (words, ending) ∧
    endline.Matches ending ∧
    ∀ (b : Build) (s s' : AsmState b) (more : List Byte), Behind s →
      writeString s ((token.dropWhile isspace).tail ++ more) = .ok s' → Filled s s' (words ++ [0])

/-- The text behind the opening quote: the first quote with an even number of backslashes in front
of it ends the line. If there are any, no line further down ends in a quote that can be reached
over quotes with backslashes in front of them only. -/
structure Clean (text : List Byte) : Prop where
  split : ∃ lit rest, text = lit ++ quote :: rest ∧ Sealed lit ∧
    (∃ ending more, rest = ending ++ more ∧ endline.Matches ending) ∧
    (0 < slashes lit → ∀ x ending more, rest = x ++ quote :: (ending ++ more) → Interior x →
      lineFeed ∈ x →
      ¬ endline.Matches ending)

section
variable {w u v body text rest : List Byte} {c : Byte}

/-! Backslashes. -/

theorem slashes_nil : slashes [] = 0 := rfl

theorem slashes_append_singleton (w : List Byte) (c : Byte) :
    slashes (w ++ [c]) = if c = slash then slashes w + 1 else 0 := by
  rw [slashes, List.reverse_append, List.reverse_singleton, List.singleton_append]
  split
  · rename_i same
    rw [List.takeWhile_cons_of_pos (by simpa using same), List.length_cons, slashes]
  · rename_i other
    rw [List.takeWhile_cons_of_neg (by simpa using other), List.length_nil]

/-- The loop has read a backslash and looks at the next character. -/
def pending (w : List Byte) : Bool := w.foldl (fun p c => c = slash && !p) false

theorem pending_iff : pending w ↔ slashes w % 2 = 1 := by
  induction w using List.reverseRecOn with
  | nil => simp [pending, slashes_nil]
  | append_singleton w c ih =>
    rw [pending, List.foldl_append, ← pending, slashes_append_singleton]
    simp only [List.foldl_cons, List.foldl_nil, Bool.and_eq_true, decide_eq_true_eq,
      Bool.not_eq_true']
    split
    · rename_i same
      have other := not_congr ih
      rw [Bool.not_eq_true] at other
      rw [and_iff_right same, other]
      omega
    · rename_i differs
      simp [differs]

theorem pending_slash (e : Byte) (w : List Byte) : pending (slash :: e :: w) = pending w := by
  simp [pending]

theorem pending_plain (other : c ≠ slash) : pending (c :: w) = pending w := by
  simp [pending, other]

theorem sealed_iff : Sealed w ↔
    (∀ front back, w = front ++ quote :: back → pending front) ∧ pending w = false := by
  constructor
  · intro closed
    refine ⟨fun front back split => pending_iff.mpr (closed.inside front back split), ?_⟩
    rw [← Bool.not_eq_true, pending_iff, closed.behind]
    decide
  · rintro ⟨inside, behind⟩
    refine ⟨fun front back split => pending_iff.mp (inside front back split), ?_⟩
    rw [← Bool.not_eq_true, pending_iff] at behind
    omega

theorem sealed_nil : Sealed [] := sealed_iff.mpr ⟨fun front back split => by simp at split, rfl⟩

theorem sealed_slash (e : Byte) : Sealed (slash :: e :: w) ↔ Sealed w := by
  rw [sealed_iff, sealed_iff, pending_slash]
  refine and_congr_left fun _ =>
    ⟨fun inside front back split => ?_, fun inside front back split => ?_⟩
  · have further := inside (slash :: e :: front) back (by rw [split]; rfl)
    rwa [pending_slash] at further
  · cases front with
    | nil => exact absurd (List.cons.inj split).1 (by decide)
    | cons a front =>
      obtain ⟨rfl, later⟩ := List.cons.inj split
      cases front with
      | nil => rfl
      | cons b front =>
        obtain ⟨rfl, rest⟩ := List.cons.inj later
        rw [pending_slash]
        exact inside front back rest

theorem sealed_plain (other : c ≠ slash) (mark : c ≠ quote) : Sealed (c :: w) ↔ Sealed w := by
  rw [sealed_iff, sealed_iff, pending_plain other]
  refine and_congr_left fun _ =>
    ⟨fun inside front back split => ?_, fun inside front back split => ?_⟩
  · have further := inside (c :: front) back (by rw [split]; rfl)
    rwa [pending_plain other] at further
  · cases front with
    | nil => exact absurd (List.cons.inj split).1 mark
    | cons a front =>
      obtain ⟨rfl, later⟩ := List.cons.inj split
      rw [pending_plain other]
      exact inside front back later

theorem Sealed.interior (closed : Sealed w) : Interior w := by
  intro front back split
  have odd := closed.inside front back split
  omega

/-! The loop. -/

def push (word : BitVec 64) (read : List (BitVec 64) × List Byte) : List (BitVec 64) × List Byte :=
  (word :: read.1, read.2)

theorem literal_quote (cs : List Byte) : literal (quote :: cs) = some ([], cs) := by
  rw [literal.eq_def]
  rfl

theorem literal_slash (e : Byte) (cs : List Byte) :
    literal (slash :: e :: cs) = (literal cs).map (push (escape e)) := by
  rw [literal.eq_def]
  rfl

theorem literal_feed (cs : List Byte) :
    literal (carriageReturn :: lineFeed :: cs) = (literal cs).map
      (push (lineFeed.signExtend 64)) := by
  rw [literal.eq_def]
  rfl

theorem literal_return {d : Byte} (other : d ≠ lineFeed) (cs : List Byte) :
    literal (carriageReturn :: d :: cs) = (literal (d :: cs)).map
      (push (carriageReturn.signExtend 64)) := by
  rw [literal.eq_def]
  exact if_neg other

theorem literal_plain (mark : c ≠ quote) (other : c ≠ slash) (ret : c ≠ carriageReturn)
    (cs : List Byte) :
    literal (c :: cs) = (literal cs).map (push (c.signExtend 64)) := by
  rw [literal.eq_def]
  simp only [if_neg mark, if_neg other, if_neg ret]
  rfl

theorem push_some {read : Option (List (BitVec 64) × List Byte)} {word : BitVec 64}
    {words : List (BitVec 64)}
    (pushed : read.map (push word) = some (words, rest)) :
    ∃ later, read = some (later, rest) ∧ words = word :: later := by
  obtain ⟨⟨later, _⟩, same, pair⟩ := Option.map_eq_some_iff.mp pushed
  cases pair
  exact ⟨later, same, rfl⟩

theorem literal_some {words : List (BitVec 64)} (read : literal text = some (words, rest)) :
    ∃ lit, text = lit ++ quote :: rest ∧ Sealed lit := by
  induction text using literal.induct generalizing words with
  | case1 => cases read
  | case2 cs =>
    rw [literal_quote] at read
    cases read
    exact ⟨[], rfl, sealed_nil⟩
  | case3 => cases read
  | case4 e cs _ ih =>
    rw [literal_slash] at read
    obtain ⟨later, tail, -⟩ := push_some read
    obtain ⟨lit, rfl, closed⟩ := ih tail
    exact ⟨slash :: e :: lit, rfl, (sealed_slash e).mpr closed⟩
  | case5 => cases read
  | case6 cs _ _ ih =>
    rw [literal_feed] at read
    obtain ⟨later, tail, -⟩ := push_some read
    obtain ⟨lit, rfl, closed⟩ := ih tail
    exact ⟨carriageReturn :: lineFeed :: lit, rfl,
      (sealed_plain (by decide) (by decide)).mpr
      ((sealed_plain (by decide) (by decide)).mpr closed)⟩
  | case7 d cs feed _ _ ih =>
    rw [literal_return feed] at read
    obtain ⟨later, tail, -⟩ := push_some read
    obtain ⟨lit, split, closed⟩ := ih tail
    exact ⟨carriageReturn :: lit, by rw [split]; rfl, (sealed_plain (by decide) (by decide)).mpr closed⟩
  | case8 c cs mark other ret ih =>
    rw [literal_plain mark other ret] at read
    obtain ⟨later, tail, -⟩ := push_some read
    obtain ⟨lit, rfl, closed⟩ := ih tail
    exact ⟨c :: lit, rfl, (sealed_plain other mark).mpr closed⟩

theorem literal_sealed (closed : Sealed body) (rest : List Byte) :
    ∃ words, literal (body ++ quote :: rest) = some (words, rest) := by
  induction body using literal.induct with
  | case1 => exact ⟨[], literal_quote rest⟩
  | case2 cs =>
    have odd := closed.inside [] cs rfl
    cases odd
  | case3 =>
    have even := closed.behind
    cases even
  | case4 e cs _ ih =>
    obtain ⟨words, read⟩ := ih ((sealed_slash e).mp closed)
    exact ⟨escape e :: words, by rw [List.cons_append, List.cons_append, literal_slash, read]; rfl⟩
  | case5 =>
    exact ⟨_, by rw [List.singleton_append, literal_return (by decide), literal_quote]; rfl⟩
  | case6 cs _ _ ih =>
    obtain ⟨words, read⟩ := ih ((sealed_plain (by decide) (by decide)).mp
      ((sealed_plain (by decide) (by decide)).mp closed))
    exact ⟨_, by rw [List.cons_append, List.cons_append, literal_feed, read]; rfl⟩
  | case7 d cs feed _ _ ih =>
    obtain ⟨words, read⟩ := ih ((sealed_plain (by decide) (by decide)).mp closed)
    exact ⟨_, by rw [List.cons_append, List.cons_append, literal_return feed, ← List.cons_append, read]; rfl⟩
  | case8 c cs mark other ret ih =>
    obtain ⟨words, read⟩ := ih ((sealed_plain other mark).mp closed)
    exact ⟨_, by rw [List.cons_append, literal_plain mark other ret, read]; rfl⟩

theorem round_filled {b : Build} {s s' : AsmState b} {word : BitVec 64} {words : List (BitVec 64)}
    (n : Nat)
    (behind : Behind s)
    (next : ∀ t : AsmState b, Behind t → writeString t text = .ok s' → Filled t s' (words ++ [0]))
    (ok : (writeValue { s with lineNum := n } word).bind (fun t => writeString t text) = .ok s') :
    Filled s s' (word :: words ++ [0]) := by
  obtain ⟨t, first, later⟩ := bind_ok ok
  have here : Behind { s with lineNum := n } := ⟨behind.inside, behind.second, behind.started⟩
  obtain ⟨filled, behind'⟩ := writeValue_filled here first
  have both := filled.trans (next t behind' later)
  exact ⟨both.started, both.objout, both.lstout, both.codeLoc⟩

theorem writeString_literal {words : List (BitVec 64)} (read : literal text = some (words, rest))
    {b : Build}
    {s s' : AsmState b} {more : List Byte} (behind : Behind s)
    (ok : writeString s (text ++ more) = .ok s') :
    Filled s s' (words ++ [0]) := by
  induction text using literal.induct generalizing words s with
  | case1 => cases read
  | case2 cs =>
    rw [literal_quote] at read
    cases read
    rw [List.cons_append, writeString.eq_def] at ok
    exact (writeValue_filled behind ok).1
  | case3 => cases read
  | case4 e cs _ ih =>
    rw [literal_slash] at read
    obtain ⟨later, tail, rfl⟩ := push_some read
    rw [List.cons_append, List.cons_append, writeString.eq_def] at ok
    exact round_filled s.lineNum behind (fun t => ih tail) ok
  | case5 => cases read
  | case6 cs _ _ ih =>
    rw [literal_feed] at read
    obtain ⟨later, tail, rfl⟩ := push_some read
    rw [List.cons_append, List.cons_append, writeString.eq_def] at ok
    exact round_filled (s.lineNum + 1) behind (fun t => ih tail) ok
  | case7 d cs feed _ _ ih =>
    rw [literal_return feed] at read
    obtain ⟨later, tail, rfl⟩ := push_some read
    rw [List.cons_append, List.cons_append, writeString.eq_def] at ok
    refine round_filled (s.lineNum + 1) behind (fun t => ih tail) (Eq.trans ?_ ok)
    exact (if_neg feed).symm
  | case8 c cs mark other ret ih =>
    rw [literal_plain mark other ret] at read
    obtain ⟨later, tail, rfl⟩ := push_some read
    rw [List.cons_append, writeString.eq_def] at ok
    have mark' : ¬ c = byte '"' := mark
    have other' : ¬ c = byte '\\' := other
    have ret' : ¬ c = byte '\r' := ret
    simp only [if_neg mark', if_neg other', if_neg ret'] at ok
    split at ok
    · exact round_filled (s.lineNum + 1) behind (fun t => ih tail) ok
    · exact round_filled s.lineNum behind (fun t => ih tail) ok

/-! The pattern. -/

theorem slashes_pos_append (u : List Byte) (pos : 0 < slashes v) : 0 < slashes (u ++ v) := by
  induction v using List.reverseRecOn with
  | nil => cases pos
  | append_singleton v c _ =>
    rw [slashes_append_singleton] at pos
    rw [← List.append_assoc, slashes_append_singleton]
    split at pos
    · rename_i same
      rw [if_pos same]
      exact Nat.succ_pos _
    · cases pos

theorem interior_nil : Interior [] := fun front back split => by simp at split

theorem Interior.append (first : Interior u) (second : Interior v) : Interior (u ++ v) := by
  intro front back split
  rcases List.append_eq_append_iff.mp split with ⟨middle, rfl, rest⟩ | ⟨middle, rfl, rest⟩
  · exact slashes_pos_append u (second middle back rest)
  · cases middle with
    | nil =>
      have none := second [] back (by simpa using rest.symm)
      cases none
    | cons a middle =>
      obtain ⟨rfl, -⟩ := List.cons.inj rest
      exact first front middle rfl

theorem Interior.left (interior : Interior (u ++ v)) : Interior u := by
  intro front back split
  exact interior front (back ++ v) (by rw [split, List.append_assoc, List.cons_append])

theorem interior_quote : Interior (u ++ quote :: v) ↔ Interior u ∧ 0 < slashes u ∧ Interior v := by
  constructor
  · intro interior
    refine ⟨interior.left, interior u v rfl, fun front back split => ?_⟩
    have further := interior (u ++ quote :: front) back (by rw [split]; simp)
    by_contra none
    cases front using List.reverseRecOn with
    | nil =>
      rw [slashes_append_singleton, if_neg (by decide)] at further
      cases further
    | append_singleton front c =>
      rw [slashes_append_singleton] at none
      have shape : u ++ quote :: (front ++ [c]) = (u ++ quote :: front) ++ [c] := by simp
      rw [shape, slashes_append_singleton] at further
      split at none
      · exact none (Nat.succ_pos _)
      · rename_i other
        rw [if_neg other] at further
        cases further
  · rintro ⟨first, pos, second⟩ front back split
    rcases List.append_eq_append_iff.mp split with ⟨middle, rfl, rest⟩ | ⟨middle, rfl, rest⟩
    · cases middle with
      | nil => simpa using pos
      | cons a middle =>
        obtain ⟨rfl, tail⟩ := List.cons.inj rest
        have shape : u ++ quote :: middle = (u ++ [quote]) ++ middle := by simp
        rw [shape]
        exact slashes_pos_append _ (second middle back tail)
    · cases middle with
      | nil => simpa using pos
      | cons a middle =>
        obtain ⟨rfl, -⟩ := List.cons.inj rest
        exact first front middle rfl

/-- Between the quotes of STRING. -/
def between : Pattern := .star (.alt (.star (.char (· ≠ byte '"'))) (lit "\\\""))

theorem matches_mark : (lit "\"").Matches w ↔ w = [quote] :=
  matches_lit_one (by decide) (caseless _ (by decide) (by decide))

theorem matches_escaped : (lit "\\\"").Matches w ↔ w = [slash, quote] := by
  have first (a : Byte) (same : tolower a = tolower slash) : a = slash :=
    caseless _ (by decide) (by decide) a same
  have second (b : Byte) (same : tolower b = tolower quote) : b = quote :=
    caseless _ (by decide) (by decide) b same
  rw [matches_lit]
  constructor
  · intro same
    obtain ⟨a, w, rfl, one, rest⟩ := List.map_eq_cons_iff.mp same
    obtain ⟨b, w, rfl, two, rest⟩ := List.map_eq_cons_iff.mp rest
    obtain rfl := List.map_eq_nil_iff.mp rest
    rw [first a one, second b two]
  · rintro rfl
    rfl

theorem interior_escaped : Interior [slash, quote] := by
  intro front back split
  cases front with
  | nil => exact absurd (List.cons.inj split).1 (by decide)
  | cons a front =>
    obtain ⟨rfl, tail⟩ := List.cons.inj split
    cases front with
    | nil => exact Nat.succ_pos _
    | cons b front =>
      obtain ⟨-, none⟩ := List.cons.inj tail
      simp at none

theorem interior_plain (plain : ∀ a ∈ w, a ≠ quote) : Interior w := by
  rintro front back rfl
  exact absurd rfl (plain quote (by simp))

theorem matches_star_append {r : Pattern} (first : (Regex.star r).Matches u) (piece : r.Matches v) :
    (Regex.star r).Matches (u ++ v) := by
  obtain ⟨pieces, rfl, each⟩ := Language.mem_kstar.mp first
  refine Language.mem_kstar.mpr ⟨pieces ++ [v], by simp, ?_⟩
  exact List.forall_mem_append.mpr ⟨each, List.forall_mem_singleton.mpr piece⟩

theorem slash_of_slashes (pos : 0 < slashes w) : ∃ front, w = front ++ [slash] := by
  cases w using List.reverseRecOn with
  | nil => cases pos
  | append_singleton front c =>
    rw [slashes_append_singleton] at pos
    split at pos
    · rename_i same
      exact ⟨front, by rw [same]⟩
    · cases pos

theorem matches_between : between.Matches w ↔ Interior w := by
  constructor
  · intro matched
    obtain ⟨pieces, rfl, each⟩ := Language.mem_kstar.mp matched
    clear matched
    induction pieces with
    | nil => exact interior_nil
    | cons piece pieces ih =>
      obtain ⟨here, others⟩ := List.forall_mem_cons.mp each
      rw [List.flatten_cons]
      refine Interior.append ?_ (ih others)
      rcases matches_alt.mp here with plain | escaped
      · exact interior_plain fun a mem => of_decide_eq_true (matches_star_char.mp plain a mem)
      · rw [matches_escaped.mp escaped]
        exact interior_escaped
  · intro interior
    -- from the end: a plain character is a piece, and a quote is one with its backslash
    induction len : w.length using Nat.strong_induction_on generalizing w with
    | _ n ih =>
      cases w using List.reverseRecOn with
      | nil => exact matches_star_nil
      | append_singleton w c =>
        rw [List.length_append, List.length_singleton] at len
        by_cases mark : c = quote
        · subst mark
          obtain ⟨front, rfl⟩ := slash_of_slashes (interior w [] rfl)
          rw [List.length_append, List.length_singleton] at len
          have rest := ih front.length (by omega) interior.left.left rfl
          rw [List.append_assoc]
          exact matches_star_append rest (matches_alt.mpr (.inr (matches_escaped.mpr rfl)))
        · have rest := ih w.length (by omega) interior.left rfl
          have plain : (Regex.star (.char (· ≠ byte '"'))).Matches [c] :=
            matches_star_char.mpr (List.forall_mem_singleton.mpr (decide_eq_true mark))
          exact matches_star_append rest (matches_alt.mpr (.inl plain))

theorem matches_oS : oS.Matches w ↔
    ∃ blanks body ending, w = blanks ++ quote :: (body ++ quote :: ending) ∧
    blanks ≠ [] ∧ (∀ x ∈ blanks, isblank x) ∧ Interior body ∧ endline.Matches ending := by
  constructor
  · intro matched
    obtain ⟨blanks, rest, blank, tail, rfl⟩ := matches_seq.mp matched
    obtain ⟨text, ending, quoted, ends, rfl⟩ := matches_seq.mp tail
    obtain ⟨opening, inner, first, behind, rfl⟩ := matches_seq.mp quoted
    obtain ⟨body, closing, inside, last, rfl⟩ := matches_seq.mp behind
    rw [matches_mark.mp first, matches_mark.mp last]
    obtain ⟨nonempty, all⟩ := matches_plus_space.mp blank
    exact ⟨blanks, body, ending, by simp, nonempty, all, matches_between.mp inside, ends⟩
  · rintro ⟨blanks, body, ending, rfl, nonempty, all, inside, ends⟩
    have quoted : Pattern.string.Matches (quote :: (body ++ [quote])) :=
      matches_seq.mpr ⟨[quote], body ++ [quote], matches_mark.mpr rfl,
        matches_seq.mpr ⟨body, [quote], matches_between.mpr inside, matches_mark.mpr rfl, rfl⟩, rfl⟩
    refine matches_seq.mpr ⟨blanks, _, matches_plus_space.mpr ⟨nonempty, all⟩, ?_, rfl⟩
    exact matches_seq.mpr ⟨_, ending, quoted, ends, by simp⟩

theorem endline_split (ends : endline.Matches w) :
    ∃ front back, w = front ++ lineFeed :: back ∧ lineFeed ∉ front ∧
      (back = [] ∨ back = [carriageReturn]) ∧
      endline.Matches (front ++ [lineFeed]) ∧
        endline.Matches (front ++ [lineFeed, carriageReturn]) := by
  obtain ⟨empty, behind, first, newline, rfl⟩ := matches_seq.mp ends
  obtain ⟨ret, feeds, second, newline', rfl⟩ := matches_seq.mp newline
  obtain ⟨feed, back, third, last, rfl⟩ := matches_seq.mp newline'
  obtain rfl : feed = [lineFeed] :=
    (matches_lit_one (by decide) (caseless _ (by decide) (by decide))).mp third
  have free : lineFeed ∉ empty ++ ret := by
    rw [List.mem_append, not_or]
    exact ⟨notMem_of_avoids (by decide) first, notMem_of_avoids (by decide) second⟩
  have whole {back : List Byte} (tail : (opt (lit "\r")).Matches back) :
    endline.Matches (empty ++ ret ++ lineFeed :: back) := by
    rw [List.append_assoc]
    exact matches_seq.mpr ⟨empty, _, first, matches_seq.mpr ⟨ret, _, second,
      matches_seq.mpr ⟨[lineFeed], back, third, tail, rfl⟩, rfl⟩, rfl⟩
  have one : (lit "\r").Matches [carriageReturn] :=
    (matches_lit_one (by decide) (caseless _ (by decide) (by decide))).mpr rfl
  refine ⟨empty ++ ret, back, by simp, free, ?_,
    whole (matches_alt.mpr (.inl (matches_epsilon.mpr rfl))),
    whole (matches_alt.mpr (.inr one))⟩
  rcases matches_alt.mp last with none | some
  · exact .inl (matches_epsilon.mp none)
  · exact .inr ((matches_lit_one (by decide) (caseless _ (by decide) (by decide))).mp some)

/-! The token. -/

theorem operand_token {blanks : List Byte} (blank : ∀ x ∈ blanks, isblank x) (text : List Byte) :
    ((blanks ++ quote :: text).dropWhile isspace).tail = text := by
  have space : ∀ x, isblank x → isspace x := by decide +kernel
  rw [List.dropWhile_append_of_pos fun x mem => space x (blank x mem), List.dropWhile_cons_of_neg
    (by decide)]
  rfl

theorem string_longest {cond : StartCondition} {input : List Byte} {n : Nat}
    (won : best (rules cond) input = some (.generate .S, n)) : Longest oS input n := by
  have listed : ⟨.generate .S, oS⟩ ∈ rules .operands := by simp [rules, operandRules]
  have only : ∀ rule ∈ rules cond, rule.token = .generate .S → cond = .operands ∧
    rule = ⟨.generate .S, oS⟩ := by
    cases cond <;> simp [rules, initialRules, operandRules, finishedRules, debugRule, keyword]
  obtain ⟨rule, mem, token, accepts⟩ := best_wins won
  obtain ⟨rfl, rfl⟩ := only rule mem token
  exact ⟨Scanner.best_bounded won, accepts, fun m bounded matched =>
    within_of_best won _ listed m bounded matched⟩

theorem mem_of_append {a b x y : List Byte} (same : a ++ c :: b = x ++ y)
    (short : a.length < x.length) : c ∈ x := by
  have here : (x ++ y)[a.length]? = some c := by
    rw [← same]
    simp
  rw [List.getElem?_append_left short] at here
  exact List.mem_of_getElem? here

/-- A string token, and what stands behind it. -/
structure Token (token post blanks body ending : List Byte) : Prop where
  split : token = blanks ++ quote :: (body ++ quote :: ending)
  blank : ∀ x ∈ blanks, isblank x
  interior : Interior body
  ends : endline.Matches ending
  longest : ∀ body' ending' more, body ++ quote :: (ending ++ post) = body' ++ quote ::
    (ending' ++ more) →
    Interior body' → endline.Matches ending' →
      body'.length + ending'.length ≤ body.length + ending.length

theorem token_of_longest {token post : List Byte}
    (longest : Longest oS (token ++ post) token.length) :
    ∃ blanks body ending, Token token post blanks body ending := by
  have accepts := longest.accepts
  rw [List.take_left] at accepts
  obtain ⟨blanks, body, ending, rfl, nonempty, blank, interior, ends⟩ := matches_oS.mp accepts
  refine ⟨blanks, body, ending, rfl, blank, interior, ends,
    fun body' ending' more same interior' ends' => ?_⟩
  have matched : oS.Matches (blanks ++ quote :: (body' ++ quote :: ending')) :=
    matches_oS.mpr ⟨blanks, body', ending', rfl, nonempty, blank, interior', ends'⟩
  have whole : blanks ++ quote :: (body ++ quote :: ending) ++ post =
      blanks ++ quote :: (body' ++ quote :: ending') ++ more := by
    simpa using same
  have most := longest.maximal (blanks ++ quote :: (body' ++ quote :: ending')).length
    (by simp only [whole, List.length_append]; omega) (by rwa [whole, List.take_left])
  simp only [List.length_append, List.length_cons] at most
  omega

theorem Token.consumed_clean {token post blanks ending : List Byte}
    (t : Token token post blanks body ending)
    (consumed : Consumed token) : Clean (body ++ quote :: (ending ++ post)) := by
  obtain ⟨words, rest, read, ends, -⟩ := consumed
  rw [t.split, operand_token t.blank] at read
  obtain ⟨lit, split, closed⟩ := literal_some read
  have text : body ++ quote :: (ending ++ post) = lit ++ quote :: (rest ++ post) := by
    have both := congrArg (· ++ post) split
    simpa using both
  refine ⟨lit, rest ++ post, text, closed, ⟨rest, post, rfl, ends⟩, ?_⟩
  intro pos x ending' more further interior feed ends'
  have reach := t.longest (lit ++ quote :: x) ending' more (by rw [text, further]; simp)
    (interior_quote.mpr ⟨closed.interior, pos, interior⟩) ends'
  obtain ⟨front, back, rfl, free, short, -⟩ := endline_split ends
  obtain ⟨front', back', rfl, -⟩ := endline_split ends'
  have lengths := congrArg List.length split
  have beyond : front.length < x.length := by
    by_contra within
    obtain ⟨a, b, rfl⟩ := List.append_of_mem feed
    have inside : lineFeed ∈ front := by
      refine mem_of_append (a := a) (b := b ++ quote :: (front' ++ lineFeed :: back' ++ more))
        (y := lineFeed :: back ++ post) ?_ ?_
      · simpa using further.symm
      · simp only [List.length_append, List.length_cons] at within
        omega
    exact free inside
  have tail : back.length ≤ 1 := by rcases short with rfl | rfl <;> simp
  simp only [List.length_append, List.length_cons] at reach lengths
  omega

theorem Token.clean_consumed {token post blanks ending : List Byte}
    (t : Token token post blanks body ending)
    (clean : Clean (body ++ quote :: (ending ++ post))) : Consumed token := by
  obtain ⟨lit, rest, text, closed, ⟨first, more, rfl, ends⟩, last⟩ := clean
  have reach := t.longest lit first more text closed.interior ends
  obtain ⟨front, back, rfl, free, short, plain, returned⟩ := endline_split ends
  obtain ⟨front', back', ending_eq, free', short', -⟩ := endline_split t.ends
  -- the closing quote of the token is on the line where the literal ends
  have line : body.length < lit.length + 1 + front.length := by
    by_contra beyond
    obtain ⟨middle, rfl, further⟩ : ∃ middle, body = lit ++ middle ∧
        quote :: (front ++ lineFeed :: back ++ more) = middle ++ quote :: (ending ++ post) := by
      rcases List.append_eq_append_iff.mp text with ⟨middle, rfl, -⟩ | ⟨middle, rfl, same⟩
      · simp only [List.length_append] at beyond
        omega
      · exact ⟨middle, rfl, same⟩
    cases middle with
    | nil =>
      simp only [List.append_nil] at beyond
      omega
    | cons mark x =>
      obtain ⟨rfl, behind⟩ := List.cons.inj further
      obtain ⟨-, pos, interior⟩ := interior_quote.mp t.interior
      refine last pos x ending post behind interior ?_ t.ends
      have same : front ++ lineFeed :: (back ++ more) = x ++ quote :: (ending ++ post) := by
        simpa using behind
      rcases Nat.lt_or_ge front.length x.length with less | least
      · exact mem_of_append same less
      · have equal : front.length = x.length := by
          simp only [List.length_append, List.length_cons] at beyond
          omega
        have marks := (List.append_inj same equal).2
        exact absurd (List.cons.inj marks).1 (by decide)
  obtain ⟨z, upTo, behind⟩ : ∃ z, lit ++ quote :: front = body ++ [quote] ++ z ∧
      ending ++ post = z ++ lineFeed :: (back ++ more) := by
    have both : body ++ [quote] ++ (ending ++ post) = lit ++ quote :: front ++ lineFeed ::
      (back ++ more) := by
      simpa using text
    rcases List.append_eq_append_iff.mp both with ⟨z, same, rest⟩ | ⟨z, same, rest⟩
    · exact ⟨z, same, rest⟩
    · have lengths := congrArg List.length same
      simp only [List.length_append, List.length_cons, List.length_nil] at lengths
      obtain rfl : z = [] := List.eq_nil_of_length_eq_zero (by omega)
      exact ⟨[], by simpa using same.symm, by simpa using rest.symm⟩
  subst ending_eq
  have lengths := congrArg List.length upTo
  simp only [List.length_append, List.length_cons, List.length_nil] at lengths reach
  have shape : front' ++ lineFeed :: (back' ++ post) = z ++ lineFeed ::
    (back ++ more) := by simpa using behind
  have equal : front'.length = z.length := by
    rcases Nat.lt_trichotomy z.length front'.length with less | same | more'
    · exact absurd (mem_of_append shape.symm less) free'
    · exact same.symm
    · rcases short' with rfl | rfl
      · simp only [List.length_nil] at reach
        omega
      · have one : z.length = (front' ++ [lineFeed]).length := by
          simp only [List.length_append, List.length_cons, List.length_nil] at reach ⊢
          omega
        have split : (front' ++ [lineFeed]) ++ carriageReturn :: post = z ++ lineFeed ::
          (back ++ more) := by
          simpa using shape
        exact absurd (List.cons.inj (List.append_inj split one.symm).2).1 (by decide)
  obtain ⟨rfl, -⟩ := List.append_inj shape equal
  have operand : body ++ quote :: (front' ++ lineFeed :: back') = lit ++ quote ::
    (front ++ lineFeed :: back') := by
    have both := congrArg (· ++ lineFeed :: back') upTo
    simpa using both.symm
  obtain ⟨words, read⟩ := literal_sealed closed (front ++ lineFeed :: back')
  have token_read : literal (token.dropWhile isspace).tail = some
    (words, front ++ lineFeed :: back') := by
    rw [t.split, operand_token t.blank, operand, read]
  refine ⟨words, front ++ lineFeed :: back', token_read, ?_, fun b s s' more behind ok =>
    writeString_literal token_read behind ok⟩
  rcases short' with rfl | rfl
  · exact plain
  · exact returned

end

/-- For every string operand of every source file: the loop of `.STRINGZ` reads the whole literal
and nothing else of the file, and the token ends with its line, if and only if the text is clean. -/
theorem stringz_consumed_iff (file : List Byte) (l : Lexeme Byte Action) (lexeme : l ∈ yylex file)
    (string : l.token = .generate .S) :
    Consumed l.text ↔ Clean ((l.text ++ l.rest).dropWhile isblank).tail := by
  obtain ⟨cond, won⟩ := Scanner.lex_best scanner lexeme
  rw [string] at won
  obtain ⟨blanks, body, ending, t⟩ := token_of_longest (string_longest won)
  have text : ((l.text ++ l.rest).dropWhile isblank).tail = body ++ quote ::
    (ending ++ l.rest) := by
    rw [t.split, List.append_assoc, List.dropWhile_append_of_pos t.blank, List.cons_append,
      List.dropWhile_cons_of_neg (by decide)]
    simp
  rw [text]
  exact ⟨t.consumed_clean, t.clean_consumed⟩

/-- A literal with an escaped newline and a line end, in front of a comment. -/
def oneString : Lexeme Byte Action := ⟨.generate .S, bytes " \"a\\n\nb\" ; c\n", bytes "RET\n"⟩

theorem oneString_consumed : Consumed oneString.text ↔
    Clean ((oneString.text ++ oneString.rest).dropWhile isblank).tail :=
  stringz_consumed_iff (bytes ".STRINGZ \"a\\n\nb\" ; c\nRET\n") oneString (by decide +kernel) rfl

/-- `.STRINGZ "\\"`, and the next line with a quote in its comment. -/
def swallowed : Lexeme Byte Action := ⟨.generate .S, bytes " \"\\\\\"\nRET;\"\n", []⟩

theorem statement_swallowed : ¬ ∀ file : List Byte, ∀ l ∈ yylex file, l.token = .generate .S →
    Consumed l.text := by
  intro always
  have lexeme : swallowed ∈ yylex (bytes ".STRINGZ \"\\\\\"\nRET;\"\n") := by decide +kernel
  obtain ⟨words, ending, read, ends, -⟩ := always _ swallowed lexeme rfl
  have stops : literal (swallowed.text.dropWhile isspace).tail = some
    ([92], bytes "\nRET;\"\n") := by decide +kernel
  rw [stops] at read
  cases read
  have no : ¬ endline.Matches (bytes "\nRET;\"\n") := by
    rw [← nullable_derivs]
    decide +kernel
  exact no ends

end LC3Tools.Lcc
