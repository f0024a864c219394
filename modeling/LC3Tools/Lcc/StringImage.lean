import LC3Tools.Lcc.Linker
import LC3Tools.Lcc.Strings

/-! The array of characters that is handed to `defstring` and the memory of the simulator
behind the linker, the 16-bit assembler and the loader. -/
namespace LC3Tools.Lcc
open Assembler Flex Regex Pattern Sim

section header
variable {cond : StartCondition} {t : Action} {word post : List Byte} {c : Byte}

theorem lex_ended {cond' : StartCondition} {rest : List Byte} (starts : rest.head? = some c)
    (nonempty : word ≠ []) (won : best (rules cond) (word ++ [c]) = some (t, word.length))
    (settled : (rules cond).all fun rule => (rule.pattern.derivs (word ++ [c])).isEmpty)
    (next : next cond t = some cond') :
    scanner.lex cond (word ++ rest) = ⟨t, word, rest⟩ :: scanner.lex cond' rest := by
  have one : scanner.Scans rest cond word [⟨t, word, rest⟩] cond' := by
    apply Scanner.Scans.one nonempty _ next
    cases rest with
    | nil => cases starts
    | cons d post =>
      cases starts
      have split : word ++ c :: post = (word ++ [c]) ++ post := by simp
      change best (rules cond) (word ++ c :: post) = _
      rw [split, best_settled post settled, won]
  exact one.lex

theorem lex_operands {input : List Byte} {form : Operands} {n : Nat}
    (won : best (rules .operands) input = some (.generate form, n + 1)) :
    scanner.lex .operands input = ⟨.generate form, input.take (n + 1), input.drop (n + 1)⟩ ::
      scanner.lex .initial (input.drop (n + 1)) := by
  have won' : best (scanner.rules .operands) input = some (.generate form, n + 1) := won
  exact Scanner.lex_match scanner won'

theorem loadValue_origin {rest : List Byte} :
    loadValue .bit16 (byte 'x' :: (bytes "0500" ++ lineFeed :: rest)) = some 0x500 := by
  have digits : digitsValue 16 (bytes "0500") = 0x500 := by decide
  have value : strtol 16 (bytes "0500" ++ lineFeed :: rest) = some 0x500 := by
    rw [strtol_hexadecimal (by decide) (by decide) (by simp; decide), digits]
    rfl
  have sign : tolower (byte 'x') = byte 'x' := by decide
  simp only [loadValue, readVal, readRawVal, List.head?_cons, Option.map_some, sign, if_true,
    true_or, List.tail_cons, value]
  rfl

theorem headerValue_init (post : List Byte) :
    headerValue .bit16 ⟨0, 0x3000, .NONE⟩ (yylex (initText ++ post)) = some 0x500 := by
  have start : ∀ ts, initLexemes.drop 5 = ts →
    initLexemes = (.blankLine, bytes ";;;;;;;;;;;;;;;;;;;;;;;;;;;;;;\n") ::
    (.blankLine, bytes ";;;; START of the header ;;;;;\n") :: (.blankLine, bytes "\n") ::
      (.opcode .ORIG, bytes ".Orig") :: (.generate .I, bytes " x0500\n") :: ts :=
        fun ts rest => rest ▸ rfl
  rw [yylex_init, start _ rfl]
  generalize initLexemes.drop 5 = ts
  simp only [placed, List.cons_append, headerValue, IsHeader, placeLexeme, reduceCtorEq, false_and,
    if_false,
    Option.bind_some, and_self, if_true]
  exact loadValue_origin
end header

section memory
variable {stale : Stale} {text : List Byte} {s₁ s₂ : AsmState .bit16} {M : Nat}

/-- What the simulator finds at a location that is listed. -/
def memoryWord (v : BitVec 64) : BitVec 16 := wordSwap16 (Build.swap16 v)

theorem listed_loaded (accepted : Accepted stale text s₁ s₂)
    (header : headerValue .bit16 ⟨0, 0x3000, .NONE⟩ (yylex text) = some 0x500) (large : 0xffff ≤ M)
    (st : State (SimpleHost M 16) 16) :
    ∃ after, loadData .bit16 (objectBytes s₂) st = some (.success, after) ∧
      ∀ line ∈ s₂.lstout, after.host.memory (BitVec.ofInt 16 line.1) = memoryWord line.2 := by
  obtain ⟨v, vs, value, more, objout, lstout, codeLoc⟩ := accepted_started accepted
  cases header.symm.trans value
  have origin : (originOf 0x500 + 1) % 0x10000 - 1 = 0x500 := by decide
  have address : loadSwap .bit16 (Build.swap .bit16 (BitVec.ofInt 64 (originOf 0x500))) =
      BitVec.ofInt (Build.registerBits .bit16) 0x500 := by
    change wordSwap16 (Build.swap16 (BitVec.ofInt 64 (originOf 0x500))) = BitVec.ofInt 16 0x500
    decide
  rw [origin] at lstout codeLoc
  have room := (runPass_inSpace (startPass_inSpace .second s₁) accepted.second).2
  have short : (vs.map (Build.swap .bit16)).length < 0x10000 := by
    rw [List.length_map]
    omega
  have inside : ∀ i, i < (vs.map (Build.swap .bit16)).length →
      (cell (b := .bit16) (loadSwap .bit16 (Build.swap .bit16 (BitVec.ofInt 64 (originOf 0x500))))
        i).toNat <
        M := by
    intro i within
    rw [List.length_map] at within
    have number := cell_toNat (b := .bit16) (j := i) (show (0 : Int) ≤ 0x500 by decide) (by omega)
    rw [address]
    exact lt_of_eq_of_lt number (by omega)
  obtain ⟨h, loaded, stored, -⟩ := loadData_stored st short inside
  refine ⟨_, by rw [objectBytes, objout]; exact loaded, ?_⟩
  intro line listed
  rw [lstout] at listed
  obtain ⟨j, within, rfl⟩ := addressed_getElem 0x500 vs line listed
  have word := stored j (by rwa [List.length_map]) (Nat.zero_le j)
  rw [address, cell_ofInt, List.getElem_map] at word
  exact word

end memory

section array
variable {stale : Stale} {text front post str : List Byte} {s₁ s₂ : AsmState .bit16}
  {label : Option (List Byte)} {ls : List (Lexeme Byte Action)}

/-- The lexemes of the directive where it is read, and what the second pass makes of them. -/
structure Written (stale : Stale) (s₁ s₂ : AsmState .bit16) (text str : List Byte)
    (ls : List (Lexeme Byte Action)) (q q' : AsmState .bit16) : Prop where
  lexemes : ∃ o l after, yylex text = ls ++ o :: l :: after ∧
    runPass stale (startPass .second s₁) (ls ++ [o]) = .ok q ∧ act stale q l = .ok q' ∧
    runPass stale q' after = .ok s₂
  filled : Filled q q' (stringWords str)
  more : ∃ vs, Filled q' s₂ vs

theorem written_of_lexemes (accepted : Accepted stale text s₁ s₂) {op : Op} {form : Operands}
    {word : List Byte} {l : Lexeme Byte Action} {after : List (Lexeme Byte Action)}
    {tail : List Byte} (lexemes : yylex text = ls ++ ⟨.opcode op, word, tail⟩ :: l :: after)
    (token : l.token = .generate form) (other : op ≠ .ORIG)
    (filled : ∀ q q' : AsmState .bit16, Behind q → q.op = op → act stale q l = .ok q' →
      Filled q q' (stringWords str)) :
    ∃ q q', Written stale s₁ s₂ text str ls q q' := by
  have lexemes' : yylex text = (ls ++ [⟨.opcode op, word, tail⟩]) ++ l :: after := by simp [lexemes]
  obtain ⟨p, p', q, q', stands⟩ := accepted_stands accepted lexemes'
  obtain ⟨t, -, last⟩ := runPass_append.mp stands.reached'
  rw [runPass_last] at last
  have current : q.op = op := by
    cases last
    rfl
  have inside := runPass_inSpace (startPass_inSpace ..) stands.reached'
  have started := statement_started inside token (current ▸ other) stands.acted' stands.errors'
  have here := filled q q' ⟨inside, stands.pass', started⟩ current stands.acted'
  have moves := lexeme_moves inside stands.acted'
  obtain ⟨-, -, pass, -⟩ := moves.follows stands.errors'
  obtain ⟨vs, rest⟩ := runPass_filled moves.inSpace
    (pass.trans stands.pass') here.started stands.rest'
    stands.errors''
  exact ⟨q, q', ⟨_, l, after, lexemes, stands.reached', stands.acted', stands.rest'⟩, here,
    vs, rest⟩

theorem occurs_written (accepted : Accepted stale text s₁ s₂)
    (ends : post.head? ≠ some carriageReturn)
    (occurs : Occurs text front ls (directive label str) post) :
    ∃ q q', Written stale s₁ s₂ text str ls q q' := by
  have lexemes : yylex text = ls ++ scanner.lex .initial (directive label str ++ post) := by
    rw [yylex, occurs.split, occurs.scans.lex]
  by_cases one : str.length = 1
  · have whole : directive label str ++ post =
        bytes ".FILL" ++ (bytes " #" ++ decimal (str.headD 0).toNat ++ lineFeed :: post) := by
      have front : bytes ".FILL #" = bytes ".FILL" ++ bytes " #" := by decide
      rw [directive, if_pos one, front]
      simp
    have opcode : scanner.lex .initial
        (bytes ".FILL" ++ (bytes " #" ++ decimal (str.headD 0).toNat ++ lineFeed :: post)) =
          ⟨.opcode .FILL, bytes ".FILL", _⟩ :: scanner.lex .operands _ :=
      lex_ended (c := byte ' ') rfl (by decide) (by decide +kernel) (by decide +kernel) rfl
    have operand := lex_operands (best_number (str.headD 0).toNat ends)
    have text : (bytes " #" ++ decimal (str.headD 0).toNat ++ lineFeed :: post).take
        ((bytes " #" ++ decimal (str.headD 0).toNat).length + 1) =
          bytes " #" ++ decimal (str.headD 0).toNat ++ [lineFeed] := by
      rw [List.take_length_add_append, List.take_succ_cons, List.take_zero]
    rw [whole, opcode, operand, text] at lexemes
    apply written_of_lexemes accepted lexemes rfl (by decide)
    intro q q' behind op acted
    rw [stringWords, if_pos one]
    exact number_filled _ rfl behind op acted
  · obtain ⟨n, won, reach⟩ := best_string label str ends
    have whole : directive label str ++ post =
        bytes ".STRINGZ" ++ (blanks label ++ quoted str ++ lineFeed :: post) := by
      rw [directive_string one]
      simp
    have opcode : scanner.lex .initial
        (bytes ".STRINGZ" ++ (blanks label ++ quoted str ++ lineFeed :: post)) =
          ⟨.opcode .STRINGZ, bytes ".STRINGZ", _⟩ :: scanner.lex .operands _ :=
      lex_ended (c := byte ' ') rfl (by decide) (by decide +kernel) (by decide +kernel) rfl
    obtain ⟨m, rfl⟩ := Nat.exists_eq_add_of_lt reach
    have operand := lex_operands won
    have text : (blanks label ++ quoted str ++ lineFeed :: post).take
        ((blanks label ++ quoted str).length + m + 1) =
          blanks label ++ (quoted str ++ lineFeed :: post.take m) := by
      rw [Nat.add_assoc, List.take_length_add_append, List.take_succ_cons, List.append_assoc]
    rw [whole, opcode, operand, text] at lexemes
    apply written_of_lexemes accepted lexemes rfl (by decide)
    intro q q' behind op acted
    rw [stringWords, if_neg one]
    exact string_filled behind op (by simp only [List.append_assoc]; rfl) acted

/-- The arrays that come through: one character; or no zero before the last character, which
is one, and no character that loses its sign. -/
def Plain (str : List Byte) : Prop :=
  str.length = 1 ∨ ∃ cs, str = cs ++ [0] ∧ ∀ c ∈ cs, c ≠ 0 ∧ (c < 128 ∨ c = 255)

theorem character_low : ∀ c : Byte,
    (memoryWord (character c)).setWidth 8 = c ↔ c ≠ 0 ∧ (c < 128 ∨ c = 255) := by
  decide +kernel

theorem number_low : ∀ c : Byte, (memoryWord (c.setWidth 64)).setWidth 8 = c := by decide +kernel

theorem words_plain (nonempty : str ≠ []) :
    (stringWords str).map (fun v => (memoryWord v).setWidth 8) = str ↔ Plain str := by
  obtain ⟨cs, c, rfl⟩ := List.eq_nil_or_concat' str |>.resolve_left nonempty
  unfold stringWords Plain
  split
  · rename_i one
    have empty : cs = [] := by
      simpa using one
    subst empty
    simp [number_low]
  · rename_i other
    have zero : (memoryWord 0).setWidth 8 = (0 : Byte) := by decide
    have kept : (cs.map character).map (fun v => (memoryWord v).setWidth 8) = cs ↔
        ∀ c ∈ cs, c ≠ 0 ∧ (c < 128 ∨ c = 255) := by
      have each := List.map_inj_left (l := cs)
        (f := fun c => (memoryWord (character c)).setWidth 8) (g := id)
      rw [List.map_id] at each
      rw [List.map_map]
      exact each.trans (forall₂_congr fun c _ => character_low c)
    rw [List.dropLast_concat, List.map_append, List.map_singleton, List.append_singleton_inj, kept]
    simp only [List.append_singleton_inj, other, false_or]
    constructor
    · rintro ⟨plain, ending⟩
      exact ⟨cs, ⟨rfl, ending.symm.trans zero⟩, plain⟩
    · rintro ⟨ds, ⟨rfl, rfl⟩, plain⟩
      exact ⟨plain, zero⟩

/-- The low bytes of the words from a location on. -/
def LowBytes (memory : BitVec 16 → BitVec 16) (loc : Int) (str : List Byte) : Prop :=
  ∀ i (inside : i < str.length), (memory (BitVec.ofInt 16 (loc + (i : Int)))).setWidth 8 = str[i]

theorem lowBytes_iff {q q' : AsmState .bit16} {memory : BitVec 16 → BitVec 16} (nonempty : str ≠ [])
    (written : Written stale s₁ s₂ text str ls q q')
    (stored : ∀ line ∈ s₂.lstout, memory (BitVec.ofInt 16 line.1) = memoryWord line.2) :
    LowBytes memory q.codeLoc str ↔ Plain str := by
  obtain ⟨vs, more⟩ := written.more
  have size := stringWords_length nonempty
  have listed : s₂.lstout = q.lstout ++ addressed q.codeLoc (stringWords str) ++
      addressed q'.codeLoc vs := by
    rw [more.lstout, written.filled.lstout]
  have word (i : Nat) (inside : i < (stringWords str).length) :
      memory (BitVec.ofInt 16 (q.codeLoc + (i : Int))) = memoryWord (stringWords str)[i] := by
    apply stored (q.codeLoc + (i : Int), (stringWords str)[i])
    rw [listed]
    exact List.mem_append_left _ (List.mem_append_right _ (mem_addressed _ _ inside))
  rw [← words_plain nonempty]
  constructor
  · intro low
    apply List.ext_getElem (by rw [List.length_map, size])
    intro i inside inside'
    rw [List.getElem_map, ← word i (size ▸ inside')]
    exact low i inside'
  · intro same i inside
    rw [word i (size ▸ inside)]
    have there := congrArg (fun l => l[i]?) same
    simp only [List.getElem?_map, List.getElem?_eq_getElem inside,
      List.getElem?_eq_getElem (size.symm ▸ inside : i < (stringWords str).length)] at there
    exact Option.some.inj there

/-- The directive is read, it moves the location by the size of the array, and its words
hold the array in their low bytes. -/
def Survives (stale : Stale) (s₁ : AsmState .bit16) (text front word post str : List Byte)
    (memory : BitVec 16 → BitVec 16) : Prop :=
  ∃ ls o l after q q', Occurs text front ls word post ∧ yylex text = ls ++ o :: l :: after ∧
    runPass stale (startPass .second s₁) (ls ++ [o]) = .ok q ∧ act stale q l = .ok q' ∧
    q'.codeLoc = q.codeLoc + str.length ∧ LowBytes memory q.codeLoc str

/-- The directive behind the header. It is taken for a statement unless a string in front of it has
run over its line; then it fills one word for each character of the array, and the words hold the
characters exactly if the array is `Plain`. -/
theorem statement_survives_iff (named : ∀ name ∈ label, isIdentifier name) (nonempty : str ≠ [])
    (ends : post.head? ≠ some carriageReturn)
    (linked : text = initText ++ before ++ linkString label str ++ post)
    (ok : assemble stale text = .ok s₂)
    (large : 0xffff ≤ M) (st : State (SimpleHost M 16) 16) :
    ∃ (s₁ : AsmState .bit16) (after : State (SimpleHost M 16) 16),
      firstPass stale text = .ok s₁ ∧
      loadData .bit16 (objectBytes s₂) st = some (.success, after) ∧
      linkString label str = labelText label ++ directive label str ∧
      (Survives stale s₁ text (initText ++ before ++ labelText label) (directive label str) post str
          after.host.memory ↔
        (∃ ls, Occurs text (initText ++ before ++ labelText label) ls (directive label str) post) ∧
          Plain str) := by
  obtain ⟨s₁, accepted⟩ := accepted_of_assemble ok
  have header : headerValue .bit16 ⟨0, 0x3000, .NONE⟩ (yylex text) = some 0x500 := by
    rw [linked]
    simp only [List.append_assoc]
    exact headerValue_init _
  obtain ⟨after, loaded, stored⟩ := listed_loaded accepted header large st
  refine ⟨s₁, after, accepted.first, loaded, linkString_eq named str, ?_⟩
  constructor
  · rintro ⟨ls, o, l, rest, q, q', occurs, lexemes, reached, acted, -, low⟩
    refine ⟨⟨ls, occurs⟩, ?_⟩
    obtain ⟨r, r', written⟩ := occurs_written accepted ends occurs
    obtain ⟨o', l', rest', lexemes', reached', -, -⟩ := written.lexemes
    have same := List.append_cancel_left (lexemes.symm.trans lexemes')
    cases same
    cases reached.symm.trans reached'
    exact (lowBytes_iff nonempty written stored).mp low
  · rintro ⟨⟨ls, occurs⟩, plain⟩
    obtain ⟨q, q', written⟩ := occurs_written accepted ends occurs
    obtain ⟨o, l, rest, lexemes, reached, acted, -⟩ := written.lexemes
    refine ⟨ls, o, l, rest, q, q', occurs, lexemes, reached, acted, ?_,
      (lowBytes_iff nonempty written stored).mpr plain⟩
    rw [written.filled.codeLoc, stringWords_length nonempty]

/-- The line of `defstring` as `lc3pp` reads it. -/
def stringLine (label : Option (List Byte)) (str : List Byte) : List Byte :=
  readline (emitString label str)

/-- What stands in front of the directive in the linked file, given the lines in front of it. -/
def linkedFront (code : List Byte) (lines : List (List Byte)) (label : Option (List Byte)) :
    List Byte :=
  initText ++ (code ++ bytes "\nGLOBAL_DATA_START\n" ++ dataText lines) ++ labelText label

/-- The lines behind the directive in the linked file, as text. -/
def linkedPost (lines : List (List Byte)) : List Byte := dataText lines ++ bytes ".END\n"

theorem readline_upto {word rest : List Byte} (free : ∀ x ∈ word, x ≠ lineFeed ∧ x ≠ 0) :
    word <+: readline (word ++ rest) := by
  rw [readline, List.takeWhile_append_of_pos fun x inside => decide_eq_true (free x inside).1,
    cstring,
    List.takeWhile_append_of_pos fun x inside => decide_eq_true (free x inside).2]
  exact List.prefix_append ..

theorem isVariableLine_string : isVariableLine (stringLine label str) := by
  have flagged : ∃ rest, emitString label str = bytes "LC3_GFLAG" ++ rest := by
    cases label with
    | none =>
      by_cases one : str.length = 1
      · have front : bytes "LC3_GFLAG .FILL #" = bytes "LC3_GFLAG" ++ bytes " .FILL #" := by decide
        exact ⟨_, by rw [emitString, defstring, if_pos one, front]; simp only [List.append_assoc]; rfl⟩
      · have front : bytes "LC3_GFLAG .STRINGZ " =
          bytes "LC3_GFLAG" ++ bytes " .STRINGZ " := by decide
        exact ⟨_, by rw [emitString, defstring, if_neg one, front]; simp only [List.append_assoc]; rfl⟩
    | some name =>
      have front : bytes "LC3_GFLAG " = bytes "LC3_GFLAG" ++ bytes " " := by decide
      exact ⟨_, by rw [emitString, Option.elim_some, global, front]; simp only [List.append_assoc]; rfl⟩
  obtain ⟨rest, shape⟩ := flagged
  rw [stringLine, shape]
  exact decide_eq_true (readline_upto (by decide))

theorem linked_split (code : List Byte) (lines more : List (List Byte)) :
    linked code (lines ++ stringLine label str :: more) =
      initText ++ (code ++ bytes "\nGLOBAL_DATA_START\n" ++ dataText lines) ++
        linkString label str ++ linkedPost more := by
  have one : dataText [stringLine label str] = linkString label str := by
    rw [dataText, List.filter_cons_of_pos isVariableLine_string, List.filter_nil,
      List.flatMap_singleton]
    rfl
  have whole : lines ++ stringLine label str :: more = lines ++ ([stringLine label str] ++ more) :=
    rfl
  rw [linked, whole, dataText_append, dataText_append, one, linkedPost]
  simp only [List.append_assoc]

/-- A string in the assembly file of a C source on its way through the linker, the 16-bit assembler
and the loader: the array is in the words of its directive exactly if the linker keeps the line, the
assembler comes to it as a statement and the array is `Plain`. -/
theorem string_survives_iff (stale : Stale) (file : List (List Byte)) (i : Import)
    (label : Option (List Byte))
    (str : List Byte) (named : ∀ name ∈ label, isIdentifier name) (nonempty : str ≠ [])
    (front behind : List (List Byte))
      (stands : i.segment file = front ++ stringLine label str :: behind)
    (before after : List (List Byte))
      (ends : ∀ l ∈ behind ++ after, (variableLine l).text.head? ≠ some carriageReturn)
    (code : List Byte) (s₂ : AsmState .bit16)
    (ok : assemble stale (linked code (before ++ i.lines file ++ after)) = .ok s₂) (M : Nat)
    (large : 0xffff ≤ M)
    (st : State (SimpleHost M 16) 16) :
    ∃ (s₁ : AsmState .bit16) (final : State (SimpleHost M 16) 16),
      firstPass stale (linked code (before ++ i.lines file ++ after)) = .ok s₁ ∧
      loadData .bit16 (objectBytes s₂) st = some (.success, final) ∧
      ((∃ more, i.lines file = front ++ stringLine label str :: more ∧
          Survives stale s₁ (linked code (before ++ i.lines file ++ after))
            (linkedFront code (before ++ front) label)
            (directive label str) (linkedPost (more ++ after)) str final.host.memory) ↔
        i.Keeps file front (stringLine label str) ∧
          (∃ more ls, i.lines file = front ++ stringLine label str :: more ∧
            Occurs (linked code (before ++ i.lines file ++ after))
              (linkedFront code (before ++ front) label) ls
              (directive label str) (linkedPost (more ++ after))) ∧ Plain str) := by
  by_cases kept : i.Keeps file front (stringLine label str)
  · obtain ⟨more, lines, among⟩ := kept_split stands kept
    have text : linked code (before ++ i.lines file ++ after) = initText ++
        (code ++ bytes "\nGLOBAL_DATA_START\n" ++ dataText (before ++ front)) ++
          linkString label str ++
          linkedPost (more ++ after) := by
      have parts : before ++ (front ++ stringLine label str :: more) ++ after =
          before ++ front ++ stringLine label str :: (more ++ after) := by simp
      rw [lines, parts, linked_split]
    have ends' : (linkedPost (more ++ after)).head? ≠ some carriageReturn :=
      dataText_head fun l mem => ends l ((List.mem_append.mp mem).elim
        (fun inside => List.mem_append_left _ (among l inside))
        (fun inside => List.mem_append_right _ inside))
    obtain ⟨s₁, final, first, loaded, -, survives⟩ :=
      statement_survives_iff named nonempty ends' text ok large st
    refine ⟨s₁, final, first, loaded, ?_⟩
    have only {more' : List (List Byte)}
      (same : i.lines file = front ++ stringLine label str :: more') : more' = more :=
      (List.cons.inj (List.append_cancel_left (same.symm.trans lines))).2
    constructor
    · rintro ⟨more', same, stays⟩
      cases only same
      obtain ⟨⟨ls, occurs⟩, plain⟩ := survives.mp stays
      exact ⟨kept, ⟨more, ls, lines, occurs⟩, plain⟩
    · rintro ⟨-, ⟨more', ls, same, occurs⟩, plain⟩
      cases only same
      exact ⟨more, lines, survives.mpr ⟨⟨ls, occurs⟩, plain⟩⟩
  · obtain ⟨s₁, accepted⟩ := accepted_of_assemble ok
    have header : headerValue .bit16 ⟨0, 0x3000, .NONE⟩
      (yylex (linked code (before ++ i.lines file ++ after))) =
        some 0x500 := by
      rw [linked]
      simp only [List.append_assoc]
      exact headerValue_init _
    obtain ⟨final, loaded, -⟩ := listed_loaded accepted header large st
    refine ⟨s₁, final, accepted.first, loaded, ?_⟩
    constructor
    · rintro ⟨more, same, -⟩
      refine absurd ((kept_iff stands).mp ?_) kept
      rw [same, List.getElem?_append_right (Nat.le_refl _), Nat.sub_self]
      rfl
    · exact fun both => absurd both.1 kept

end array

/-- The lines of a file whose `main` does nothing, with one array. -/
def oneArray (str : List Byte) : List (List Byte) :=
  [bytes ".global main", bytes "main", bytes "RET", stringLine (some (bytes "s")) str, bytes ".END"]

def mainCode : List Byte := bytes "main\nRET\n"

def arrayText (str : List Byte) : List Byte :=
  linked mainCode ([] ++ Import.main.lines (oneArray str) ++ [])

/-- What stands in the linked file behind the header, up to the array. -/
def arrayFront : List Byte :=
  mainCode ++ bytes "\nGLOBAL_DATA_START\n" ++ labelText (some (bytes "s"))

/-- A text with a quote, a backslash and a line feed in it. -/
def plainString : List Byte := bytes "\"\\\n" ++ [0]

theorem arrayText_split {str : List Byte} (one : Import.main.segment (oneArray str) =
      [bytes "main", bytes "RET"] ++ stringLine (some (bytes "s")) str :: []) :
    arrayText str =
      initText ++ (arrayFront ++ directive (some (bytes "s")) str ++ bytes ".END\n") := by
  have lines : Import.main.lines (oneArray str) = [bytes "main", bytes "RET"] ++ stringLine
    (some (bytes "s")) str :: [] :=
    one
  have word : linkString (some (bytes "s")) str = labelText (some (bytes "s")) ++ directive
    (some (bytes "s")) str :=
    linkString_eq (by simp; decide) str
  rw [arrayText, lines, List.nil_append, List.append_nil, linked_split, word]
  have data : dataText [bytes "main", bytes "RET"] = [] := by decide
  have post : linkedPost [] = bytes ".END\n" := rfl
  rw [data, post, arrayFront]
  simp only [List.append_assoc, List.append_nil]

theorem plainString_segment : Import.main.segment (oneArray plainString) =
    [bytes "main", bytes "RET"] ++ stringLine (some (bytes "s")) plainString :: [] := by
  decide +kernel

theorem plainString_occurs : ∃ ls,
    Occurs (arrayText plainString) (linkedFront mainCode ([] ++ [bytes "main", bytes "RET"])
    (some (bytes "s"))) ls (directive (some (bytes "s")) plainString) (linkedPost ([] ++ [])) := by
  have front : linkedFront mainCode ([] ++ [bytes "main", bytes "RET"]) (some (bytes "s")) =
      texts initLexemes ++ (lineFeed :: arrayFront) := by
    have data : dataText ([] ++ [bytes "main", bytes "RET"]) = [] := by decide
    rw [linkedFront, data, initText, arrayFront]
    simp
  have ended : (scanner.scanPart (directive (some (bytes "s")) plainString ++ bytes ".END\n")
    20 .initial
      (lineFeed :: arrayFront)).map (·.2) = some .initial := by
    decide +kernel
  obtain ⟨⟨ls, last⟩, found, same⟩ := Option.map_eq_some_iff.mp ended
  cases same
  have scanned := Scanner.scans_of_scanPart found
  have header :=
    scans_init (arrayFront ++ (directive (some (bytes "s")) plainString ++ bytes ".END\n"))
  refine ⟨_, ?_, front ▸ header.append scanned⟩
  rw [arrayText_split plainString_segment, front, initText]
  simp [linkedPost, dataText]

theorem string_survives_plain :
    ∃ (s₁ s₂ : AsmState .bit16) (final : State (SimpleHost 0xffff 16) 16)
    (more : List (List Byte)), assemble (fun _ _ => 0) (arrayText plainString) = .ok s₂ ∧
      loadData .bit16 (objectBytes s₂) (emptyMachine .bit16) = some (.success, final) ∧
      Survives (fun _ _ => 0) s₁ (arrayText plainString)
        (linkedFront mainCode ([] ++ [bytes "main", bytes "RET"]) (some (bytes "s")))
        (directive (some (bytes "s")) plainString)
        (linkedPost (more ++ [])) plainString final.host.memory := by
  have accepted : (assemble (b := .bit16) (fun _ _ => 0) (arrayText plainString)).isOk := by
    rw [arrayText_split plainString_segment, assemble_init]
    decide +kernel
  obtain ⟨s₂, ok⟩ := eq_ok_of_isOk accepted
  obtain ⟨s₁, final, -, loaded, survives⟩ :=
    string_survives_iff (fun _ _ => 0) (oneArray plainString) .main
    (some (bytes "s")) plainString (by simp; decide) (by decide) [bytes "main", bytes "RET"]
    [] plainString_segment
    [] [] (List.forall_mem_nil _) mainCode s₂ ok 0xffff (by decide) (emptyMachine .bit16)
  obtain ⟨ls, occurs⟩ := plainString_occurs
  obtain ⟨more, -, stays⟩ := survives.mpr ⟨.inl rfl, ⟨[], ls, plainString_segment, occurs⟩,
    .inr ⟨bytes "\"\\\n", rfl, by decide +kernel⟩⟩
  exact ⟨s₁, s₂, final, more, ok, loaded, stays⟩

/-- A zero in the middle: the assembler reads `\0` as the digit. -/
def zeroString : List Byte := [97, 0, 98, 0]

theorem zero_lost : ∃ (s₂ : AsmState .bit16) (final : State (SimpleHost 0xffff 16) 16),
    assemble (fun _ _ => 0) (arrayText zeroString) = .ok s₂ ∧
      s₂.lstout.drop 10 = [(0x50a, 97), (0x50b, 48), (0x50c, 98), (0x50d, 0)] ∧
      loadData .bit16 (objectBytes s₂) (emptyMachine .bit16) = some (.success, final) ∧
      ¬ LowBytes final.host.memory 0x50a zeroString := by
  have segment : Import.main.segment (oneArray zeroString) =
      [bytes "main", bytes "RET"] ++ stringLine (some (bytes "s")) zeroString ::
      [] := by decide +kernel
  have output : (assemble (b := .bit16) (fun _ _ => 0) (arrayText zeroString)).output.map
      (fun words => words.2.drop 10) =
        some [(0x50a, 97), (0x50b, 48), (0x50c, 98), (0x50d, 0)] := by
    rw [arrayText_split segment, assemble_init]
    decide +kernel
  cases outcome : assemble (b := .bit16) (fun _ _ => 0) (arrayText zeroString) with
  | failed s => rw [outcome] at output; cases output
  | undefined => rw [outcome] at output; cases output
  | ok s₂ =>
    rw [outcome] at output
    have lstout : s₂.lstout.drop 10 = [(0x50a, 97), (0x50b, 48), (0x50c, 98), (0x50d, 0)] :=
      Option.some.inj output
    obtain ⟨s₁, accepted⟩ := accepted_of_assemble outcome
    have header : headerValue .bit16 ⟨0, 0x3000, .NONE⟩ (yylex (arrayText zeroString)) =
      some 0x500 := by
      rw [arrayText_split segment]
      exact headerValue_init _
    obtain ⟨final, loaded, stored⟩ :=
      listed_loaded accepted header (Nat.le_refl 0xffff) (emptyMachine .bit16)
    refine ⟨s₂, final, rfl, lstout, loaded, fun low => ?_⟩
    have listed : ((0x50b, 48) : Int × BitVec 64) ∈ s₂.lstout := by
      apply List.mem_of_mem_drop (i := 10)
      rw [lstout]
      simp
    have digit := stored (0x50b, 48) listed
    have second := low 1 (by decide)
    change (final.host.memory (BitVec.ofInt 16 0x50b)).setWidth 8 = 0 at second
    rw [digit] at second
    exact absurd second (by decide)

end LC3Tools.Lcc
