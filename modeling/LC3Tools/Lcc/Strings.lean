import LC3Tools.Assembler.Encode
import LC3Tools.Assembler.Image
import LC3Tools.Lcc.Fill
import LC3Tools.Lcc.GlobalData

/-! The strings of the back end in the memory of the simulator. The assembler reads the
escapes of `defstring` back one by one, but knows no `\0`; it writes a zero behind the text
whatever the last character was; and a character is a signed number on its way to the
object file. -/
namespace LC3Tools.Lcc
open Assembler Flex Regex Pattern Sim

section scanning
variable {label : Option (List Byte)} {str : List Byte} {post : List Byte}

/-- The text between the quotes, and the quotes. -/
def quoted (str : List Byte) : List Byte := quote :: str.dropLast.flatMap escaped ++ [quote]

def blanks (label : Option (List Byte)) : List Byte :=
  byte ' ' :: if label = none then bytes " " else []

theorem matches_quoted (str : List Byte) : Pattern.string.Matches (quoted str) := by
  have one : (lit "\"").Matches [quote] :=
    (matches_lit_one (by decide) (caseless _ (by decide) (by decide))).mpr rfl
  have piece : ∀ c : Byte,
      ((Regex.alt (.star (.char (· ≠ byte '"'))) (lit "\\\"")).derivs (escaped c)).nullable := by
    decide +kernel
  have inner (cs : List Byte) :
      (Regex.star (.alt (.star (.char (· ≠ byte '"'))) (lit "\\\""))).Matches
      (cs.flatMap escaped) := by
    refine Language.mem_kstar.mpr ⟨cs.map escaped, List.flatMap_def .., ?_⟩
    intro y inside
    obtain ⟨c, -, rfl⟩ := List.mem_map.mp inside
    exact (nullable_derivs _ _).mp (piece c)
  refine matches_seq.mpr ⟨[quote], _, one, ?_, rfl⟩
  exact matches_seq.mpr ⟨_, [quote], inner _, one, rfl⟩

theorem directive_string (other : str.length ≠ 1) :
    directive label str = bytes ".STRINGZ" ++ (blanks label ++ quoted str ++ [lineFeed]) := by
  have front : bytes ".STRINGZ " = bytes ".STRINGZ" ++ [byte ' '] := by decide
  unfold directive blanks quoted
  rw [if_neg other, front]
  simp

theorem earlier_string (rest : List Byte) : ∀ rule ∈ operandRules.take 8,
    ¬ rule.pattern.Matches (blanks label ++ quote :: rest) := by
  have one : ∀ rule ∈ operandRules.take 8, (rule.pattern.derivs [byte ' ', quote]).isEmpty := by
    decide +kernel
  have two : ∀ rule ∈ operandRules.take 8,
      (rule.pattern.derivs [byte ' ', byte ' ', quote]).isEmpty := by
    decide +kernel
  intro rule inside matched
  cases label with
  | none =>
    exact not_matches_of_isEmpty (two rule inside) rest ((matches_derivs _ _ _).mpr matched)
  | some name =>
    exact not_matches_of_isEmpty (one rule inside) rest ((matches_derivs _ _ _).mpr matched)

theorem matches_line (str : List Byte) : oS.Matches (blanks label ++ quoted str ++ [lineFeed]) := by
  have blank : (plus space).Matches (blanks label) := by
    rw [matches_plus_space]
    cases label with
    | none => exact ⟨by simp [blanks], by decide +kernel⟩
    | some name => exact ⟨by simp [blanks], List.forall_mem_singleton.mpr (by decide)⟩
  refine matches_seq.mpr ⟨blanks label, quoted str ++ [lineFeed], blank, ?_, by simp⟩
  exact matches_seq.mpr ⟨quoted str, [lineFeed], matches_quoted str, endline_lineFeed, rfl⟩

theorem best_string (label : Option (List Byte)) (str : List Byte)
    (ends : post.head? ≠ some carriageReturn) :
    ∃ n, best (rules .operands) (blanks label ++ quoted str ++ lineFeed :: post) =
      some (.generate .S, n) ∧ (blanks label ++ quoted str).length < n := by
  have whole : (blanks label ++ quoted str ++ lineFeed :: post).take
      ((blanks label ++ quoted str).length + 1) = blanks label ++ quoted str ++ [lineFeed] := by
    rw [List.take_length_add_append, List.take_succ_cons, List.take_zero]
  have line : oS.Matches ((blanks label ++ quoted str ++ lineFeed :: post).take
      ((blanks label ++ quoted str).length + 1)) := whole ▸ matches_line str
  cases longest : oS.longest (blanks label ++ quoted str ++ lineFeed :: post) with
  | none => exact absurd line (longest_none.mp longest _)
  | some n =>
    have most := longest_some longest
    have reach : (blanks label ++ quoted str).length + 1 ≤ n := by
      apply most.maximal _ _ line
      simp only [List.length_append, List.length_cons]
      omega
    refine ⟨n, ?_, reach⟩
    apply best_first (operandRules.take 8) (operandRules.drop 9) ⟨.generate .S, oS⟩ most.bounded ?_
      most.accepts ?_
    · intro rule inside m bounded matched
      rcases rule_line .operands (by simp) inside matched with short | string
      · exact (line_within ends bounded rfl short).trans reach
      · exact most.maximal m bounded string
    · have front : (blanks label ++ quoted str ++ lineFeed :: post).take n =
          blanks label ++ quote ::
            ((str.dropLast.flatMap escaped ++ [quote] ++ lineFeed :: post).take
            (n - (blanks label).length - 1)) := by
        have behind : (blanks label).length + 1 ≤ n := by
          simp only [List.length_append, quoted, List.length_cons] at reach
          omega
        have split : n = (blanks label).length + ((n - (blanks label).length - 1) + 1) := by omega
        rw [quoted, List.append_assoc, List.cons_append, List.cons_append]
        conv_lhs => rw [split]
        rw [List.take_length_add_append, List.take_succ_cons]
      rw [front]
      exact earlier_string _

theorem matches_number (k : Nat) : oI.Matches (bytes " #" ++ decimal k ++ [lineFeed]) := by
  have blank : (plus space).Matches [byte ' '] :=
    matches_plus_space.mpr ⟨by simp, List.forall_mem_singleton.mpr (by decide)⟩
  have mark : (opt (lit "#")).Matches [byte '#'] :=
    matches_alt.mpr (.inr
      ((matches_lit_one (by decide) (caseless _ (by decide) (by decide))).mpr rfl))
  have unsigned : (opt (lit "-")).Matches [] := matches_alt.mpr (.inl (matches_epsilon.mpr rfl))
  have digits : (plus (.char isdigit)).Matches (decimal k) := by
    have all : ∀ x ∈ decimal k, isdigit x := fun x inside => isdigit_decimal inside
    cases text : decimal k with
    | nil => exact absurd text (decimal_ne_nil k)
    | cons d ds =>
      rw [text] at all
      obtain ⟨first, others⟩ := List.forall_mem_cons.mp all
      exact matches_seq.mpr ⟨[d], ds, ⟨d, first, rfl⟩, matches_star_char.mpr others, rfl⟩
  have number : Pattern.decimal.Matches (byte '#' :: decimal k) :=
    matches_seq.mpr ⟨[byte '#'], decimal k, mark,
      matches_seq.mpr ⟨[], _, unsigned, digits, rfl⟩, rfl⟩
  have front : bytes " #" ++ decimal k ++ [lineFeed] =
      [byte ' '] ++ ((byte '#' :: decimal k) ++ [lineFeed]) := by
    simp [bytes]
  rw [front]
  exact matches_seq.mpr ⟨[byte ' '], _, blank, matches_seq.mpr ⟨byte '#' :: decimal k, [lineFeed],
    matches_alt.mpr (.inr number), endline_lineFeed, rfl⟩, rfl⟩

theorem best_number (k : Nat) (ends : post.head? ≠ some carriageReturn) :
    best (rules .operands) (bytes " #" ++ decimal k ++ lineFeed :: post) =
      some (.generate .I, (bytes " #" ++ decimal k).length + 1) := by
  have line : OnLine (bytes " #" ++ decimal k) := OnLine.append (by decide) (onLine_decimal _)
  have whole : (bytes " #" ++ decimal k ++ lineFeed :: post).take
    ((bytes " #" ++ decimal k).length + 1) =
      bytes " #" ++ decimal k ++ [lineFeed] := by
    rw [List.take_length_add_append, List.take_succ_cons, List.take_zero]
  have within := firstLine_within .operands (by simp) ⟨line, ends⟩
  apply best_first (operandRules.take 6) (operandRules.drop 7) ⟨.generate .I, oI⟩ ?_ within
    (whole ▸ matches_number k) ?_
  · simp only [List.length_append, List.length_cons]
    omega
  · have none : ∀ rule ∈ operandRules.take 6, (rule.pattern.derivs (bytes " #")).isEmpty := by
      decide +kernel
    intro rule inside matched
    rw [whole, List.append_assoc] at matched
    exact not_matches_of_isEmpty (none rule inside) _ ((matches_derivs _ _ _).mpr matched)

end scanning

section writing
variable {b : Build} {s s' : AsmState b} {rest post : List Byte}

/-- The word that the assembler writes for a character of the text. -/
def character (c : Byte) : BitVec 64 := if c = 0 then 48 else c.signExtend 64

theorem writeString_escaped (c : Byte) :
    writeString s (escaped c ++ rest) = (writeValue s (character c)).bind fun s =>
      writeString s rest := by
  have shape : ∀ c : Byte,
      (escaped c = [c] ∧ character c = c.signExtend 64 ∧
        c ≠ byte '"' ∧ c ≠ byte '\\' ∧ c ≠ byte '\r' ∧ c ≠ byte '\n') ∨
      (escaped c = [byte '\\', (escaped c).getD 1 0] ∧
        escape ((escaped c).getD 1 0) = character c) := by
    decide +kernel
  rcases shape c with ⟨same, value, mark, slash, ret, feed⟩ | ⟨same, value⟩
  · rw [same, value, List.singleton_append, writeString.eq_def]
    simp only [if_neg mark, if_neg slash, if_neg ret, if_neg feed]
  · have mark : byte '\\' ≠ byte '"' := by decide
    rw [same, ← value, List.cons_append, List.singleton_append, writeString.eq_def]
    simp only [if_neg mark, if_true]

/-- A state of the second pass behind the header. -/
structure Behind (s : AsmState b) : Prop where
  inside : InSpace s
  second : s.pass = .second
  started : s.sawOrig ≠ 0

theorem writeValue_filled {v : BitVec 64} (behind : Behind s) (ok : writeValue s v = .ok s') :
    Filled s s' [v] ∧ Behind s' := by
  obtain ⟨inside, second, started⟩ := behind
  have written := writeValue_ok ok
  have wrote := writeValue_wrote inside ok
  have objout := written.objout
  have lstout := written.lstout
  rw [if_pos second] at objout
  rw [if_pos ⟨second, started⟩] at lstout
  have later : s'.sawOrig ≠ 0 := written.sawOrig.symm ▸ started
  exact ⟨⟨later, objout, lstout, wrote.codeLoc⟩, wrote.inSpace inside,
    written.pass.trans second, later⟩

theorem writeString_filled {cs : List Byte} (behind : Behind s)
    (ok : writeString s (cs.flatMap escaped ++ quote :: rest) = .ok s') :
    Filled s s' (cs.map character ++ [0]) := by
  induction cs generalizing s with
  | nil =>
    rw [List.flatMap_nil, List.nil_append, writeString.eq_def] at ok
    exact (writeValue_filled behind ok).1
  | cons c cs ih =>
    rw [List.flatMap_cons, List.append_assoc, writeString_escaped] at ok
    obtain ⟨t, first, later⟩ := bind_ok ok
    obtain ⟨filled, behind'⟩ := writeValue_filled behind first
    exact filled.trans (ih behind' later)

/-- The words of an array of characters. -/
def stringWords (str : List Byte) : List (BitVec 64) :=
  if str.length = 1 then [(str.headD 0).setWidth 64] else str.dropLast.map character ++ [0]

theorem stringWords_length {str : List Byte} (nonempty : str ≠ []) :
    (stringWords str).length = str.length := by
  have positive := List.length_pos_of_ne_nil nonempty
  unfold stringWords
  split
  · rename_i one
    exact one.symm
  · simp only [List.length_append, List.length_map, List.length_dropLast, List.length_singleton]
    omega

theorem string_filled {stale : Stale} {label : Option (List Byte)} {str text post more : List Byte}
    (behind : Behind s) (op : s.op = .STRINGZ)
    (shape : text ++ 0 :: post.tail = blanks label ++ (quoted str ++ more))
    (ok : act stale s ⟨.generate .S, text, post⟩ = .ok s') :
    Filled s s' (str.dropLast.map character ++ [0]) := by
  have operand : (blanks label ++ (quoted str ++ more)).dropWhile isspace = quoted str ++ more := by
    have blank : ∀ x ∈ blanks label, isspace x := by
      cases label with
      | none => decide +kernel
      | some name => exact List.forall_mem_singleton.mpr (by decide)
    have dark : ¬ isspace quote := by decide
    rw [List.dropWhile_append_of_pos blank, quoted, List.cons_append, List.cons_append,
      List.dropWhile_cons_of_neg dark]
  have format : (opFormatOk .STRINGZ).testBit Operands.S.code := by decide
  have other : ¬ s.op = .ORIG := by
    rw [op]
    decide
  simp only [act, shape, generateInstruction] at ok
  rw [op, if_neg (not_not_intro format), ← op, if_neg other, if_neg behind.started] at ok
  obtain ⟨t, wrote, rfl⟩ := map_ok ok
  simp only [generateOp, op, operand] at wrote
  have text : (quoted str ++ more).tail = str.dropLast.flatMap escaped ++ quote :: more := by
    simp [quoted]
  rw [text] at wrote
  obtain ⟨started, objout, lstout, codeLoc⟩ := writeString_filled behind wrote
  exact ⟨started, objout, lstout, codeLoc⟩

theorem number_filled {stale : Stale} (c : Byte) (build : b = .bit16) (behind : Behind s)
    (op : s.op = .FILL)
    (ok : act stale s ⟨.generate .I, bytes " #" ++ decimal c.toNat ++ [lineFeed], post⟩ = .ok s') :
    Filled s s' [c.setWidth 64] := by
  subst build
  have dark : ¬ isspace (byte '#') := by decide
  have operand : (bytes " #" ++ decimal c.toNat ++ [lineFeed] ++ 0 :: post.tail).dropWhile isspace =
      byte '#' :: (decimal c.toNat ++ lineFeed :: 0 :: post.tail) := by
    have front : bytes " #" = [byte ' ', byte '#'] := by decide
    rw [front]
    simp [isspace, byte]
  have format : (opFormatOk .FILL).testBit Operands.I.code := by decide
  have other : ¬ s.op = .ORIG := by
    rw [op]
    decide
  have number : strtol 10 (decimal c.toNat ++ lineFeed :: 0 :: post.tail) = some (c.toNat : Int) :=
    strtol_decimal _ (by simp; decide)
  have small : BitVec.ofInt 64 (c.toNat : Int) = c.setWidth 64 := by
    apply BitVec.eq_of_toNat_eq
    simp
  have positive : (c.setWidth 64).toInt = c.toNat := by
    rw [← small, BitVec.toInt_ofInt, Int.bmod_eq_of_le] <;> omega
  have read : readVal .bit16 (byte '#' :: (decimal c.toNat ++ lineFeed :: 0 :: post.tail))
      (Build.loadRegBitCount .bit16) = .ok (c.setWidth 64) := by
    have sign : ¬ tolower (byte '#') = byte 'x' := by decide
    have room : -2 ^ 63 ≤ (c.toNat : Int) ∧ (c.toNat : Int) < 2 ^ 63 := by omega
    have plain : Build.handles64BitLongs .bit16 (c.setWidth 64) = c.setWidth 64 := by
      unfold Build.handles64BitLongs
      rw [positive]
      exact if_neg (by omega)
    have inside : Build.checkOutOfRange .bit16 (c.setWidth 64) (Build.loadRegBitCount .bit16) =
      false := by
      unfold Build.checkOutOfRange
      rw [positive]
      exact decide_eq_false (by simp [Build.loadRegBitCount]; omega)
    simp only [readVal, readRawVal, List.head?_cons, Option.map_some, Option.some.injEq, sign,
      or_true, if_true, if_false, List.tail_cons, number, room, and_self, small, plain, Except.bind,
      inside, ne_eq, not_true_eq_false, false_and, Bool.false_eq_true]
  simp only [act, generateInstruction] at ok
  rw [operand, op, if_neg (not_not_intro format), ← op, if_neg other, if_neg behind.started] at ok
  obtain ⟨t, wrote, rfl⟩ := map_ok ok
  simp only [generateOp, op, if_true, readLoadInto] at wrote
  rw [read] at wrote
  have masked : ∀ c : Byte, c.setWidth 64 &&& Build.valueMask .bit16 = c.setWidth 64 := by
    decide +kernel
  have filled : Filled s t [c.setWidth 64 &&& Build.valueMask .bit16] :=
    (writeValue_filled behind wrote).1
  rw [masked] at filled
  obtain ⟨started, objout, lstout, codeLoc⟩ := filled
  exact ⟨started, objout, lstout, codeLoc⟩

end writing

end LC3Tools.Lcc
