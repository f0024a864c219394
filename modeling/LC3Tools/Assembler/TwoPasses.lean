import LC3Tools.Assembler.Layout

/-! The two passes over an accepted source file, statement by statement. -/
namespace LC3Tools.Assembler
open Flex

variable {b : Build}

/-- The .ORIG that sets the origin. -/
def IsHeader (p : Place) (l : Lexeme Byte Action) : Prop :=
  l.token = .generate .I ∧ p.op = .ORIG ∧ p.sawOrig = 0

theorem orig_operands {operands : Operands} (format : (opFormatOk .ORIG).testBit operands.code) :
    operands = .I := by
  cases operands <;> first | rfl | exact absurd format (by decide)

/-- The operands of a lexeme, as the generator finds them. -/
def firstOperand (l : Lexeme Byte Action) : List Byte :=
  (l.text ++ 0 :: l.rest.tail).dropWhile isspace

/-- The `int` that code_loc becomes when .ORIG reads a number. -/
def originOf (v : BitVec 64) : Int := (v.setWidth 32).toInt

/-- The header sets the origin and is one word of the file. -/
structure HeaderMove (b : Build) (p : Place) (l : Lexeme Byte Action) (p' : Place) (n : Nat)
    (v : BitVec 64) : Prop where
  header : IsHeader p l
  value : loadValue b (firstOperand l) = some v
  more : (originOf v + 1) % 0x10000 ≠ 0
  next : p' = ⟨1, (originOf v + 1) % 0x10000 - 1, .NONE⟩
  one : n = 1

/-- Any other lexeme writes a word for each location it passes, once there is an origin. -/
structure PlainMove (p : Place) (l : Lexeme Byte Action) (p' : Place) (n : Nat) : Prop where
  plain : ¬ IsHeader p l
  apart : p'.codeLoc = p.codeLoc + n
  before : p.sawOrig = 0 → p'.sawOrig = 0 ∧ n = 0
  behind : p.sawOrig ≠ 0 → p'.sawOrig ≠ 0

theorem placeLexeme_moves {p p' : Place} {l : Lexeme Byte Action} {n : Nat}
    (next : placeLexeme b p l = some (p', n)) :
    (∃ v, HeaderMove b p l p' n v) ∨ PlainMove p l p' n := by
  cases token : l.token with
  | generate operands =>
    simp only [placeLexeme, token] at next
    unfold placeStatement at next
    split at next
    · cases next
    · rename_i format
      split at next
      · rename_i orig
        have form : operands = .I := orig_operands (orig ▸ not_not.mp format)
        split at next
        · rename_i start
          obtain ⟨v, value, found⟩ := Option.bind_eq_some_iff.mp next
          simp only at found
          split at found
          · cases found
          · rename_i more
            cases found
            exact .inl ⟨v, ⟨form ▸ token, orig, start⟩, value, more, rfl, rfl⟩
        · rename_i started
          have other : ¬ IsHeader p l := fun header => started header.2.2
          split at next
          · cases next
            exact .inr ⟨other, by simp, fun none => absurd none started, fun _ => by simp⟩
          · cases next
            exact .inr ⟨other, by simp, fun none => absurd none started, fun _ => started⟩
      · rename_i other
        have plain : ¬ IsHeader p l := fun header => other header.2.1
        split at next
        · cases next
        · rename_i started
          obtain ⟨k, -, found⟩ := Option.bind_eq_some_iff.mp next
          split at found <;> cases found
          exact .inr ⟨plain, rfl, fun none => absurd none started, fun _ => started⟩
  | unterminatedString | badOperands | strayOperands | badLine =>
    simp only [placeLexeme, token] at next
    cases next
  | _ =>
    have plain : ¬ IsHeader p l := by
      rintro ⟨form, -⟩
      rw [token] at form
      cases form
    simp only [placeLexeme, token] at next
    cases next
    exact .inr ⟨plain, by simp, fun none => ⟨none, rfl⟩, fun started => started⟩

/-- Both passes at one lexeme: where they stand, where they go on, what is written. -/
structure InStep (p p' q q' : AsmState b) (l : Lexeme Byte Action) : Prop where
  here : p.codeLoc = q.codeLoc
  there : p'.codeLoc = q'.codeLoc
  header : IsHeader p.place l ↔ IsHeader q.place l
  unwritten : p'.objout = p.objout
  written : ∃ words, q'.objout = q.objout ++ words ∧
    (IsHeader q.place l → words.length = 1 ∧
      ∃ v, loadValue b (firstOperand l) = some v ∧ q'.codeLoc = (originOf v + 1) % 0x10000 - 1) ∧
    (¬ IsHeader q.place l → q'.codeLoc = q.codeLoc + words.length)

theorem same_move {stale : Stale} {p p' q q' : AsmState b} {l : Lexeme Byte Action}
    (place : p.place = q.place) (first : p.pass = .first) (second : q.pass = .second)
    (inside : InSpace p) (inside' : InSpace q)
    (acted : act stale p l = .ok p') (acted' : act stale q l = .ok q')
    (errors : p'.numErrors = p.numErrors) (errors' : q'.numErrors = q.numErrors) :
    InStep p p' q q' l := by
  obtain ⟨n, next, -, us, -, emitted⟩ := (lexeme_moves inside acted).follows errors
  obtain ⟨m, next', -, vs, size, emitted'⟩ := (lexeme_moves inside' acted').follows errors'
  have unwritten := emitted.objout
  have written := emitted'.objout
  rw [if_neg (by rw [first]; decide), List.append_nil] at unwritten
  rw [if_pos second] at written
  rw [place, next'] at next
  obtain ⟨there, rfl⟩ := Prod.mk.inj (Option.some.inj next)
  have moves := placeLexeme_moves next'
  refine ⟨congrArg Place.codeLoc place, (congrArg Place.codeLoc there).symm, by rw [place],
    unwritten, _, written, ?_, ?_⟩
  · intro header
    rcases moves with ⟨v, move⟩ | move
    · refine ⟨by rw [List.length_map, size, move.one], v, move.value, ?_⟩
      exact congrArg Place.codeLoc move.next
    · exact absurd header move.plain
  · intro plain
    rcases moves with ⟨v, move⟩ | move
    · exact absurd move.header plain
    · rw [List.length_map, size]
      exact move.apart

theorem label_found {s : AsmState b} (lname : List Byte) (first : s.pass = .first)
    (errors : (foundLabel s lname).numErrors = s.numErrors) :
    s.sawOrig ≠ 0 ∧ findSymbol (foundLabel s lname).symbols (symName lname) = some
      ⟨symName lname, s.codeLoc⟩ := by
  simp only [foundLabel, if_pos first] at errors ⊢
  split at errors
  · simp [countError] at errors
  · rename_i started
    rw [if_neg started]
    split at errors
    · simp [countError] at errors
    · rename_i added
      refine ⟨started, ?_⟩
      simp [findSymbol_addSymbol added, sameName]

theorem runPass_symbols {stale : Stale} {s s' : AsmState b} {ls : List (Lexeme Byte Action)}
    (inside : InSpace s) (ok : runPass stale s ls = .ok s') : Keeps s.symbols s'.symbols := by
  induction ls generalizing s with
  | nil =>
    cases ok
    exact Keeps.refl _
  | cons l ls ih =>
    obtain ⟨t, acted, rest⟩ := runPass_cons.mp ok
    have moves := lexeme_moves inside acted
    exact moves.enters.keeps.trans (ih moves.inSpace rest)

/-- The two passes of a file that is assembled: neither counts an error. -/
structure Accepted (stale : Stale) (text : List Byte) (s₁ s₂ : AsmState b) : Prop where
  first : firstPass stale text = .ok s₁
  second : secondPass stale text s₁ = .ok s₂
  clean : s₁.numErrors = 0
  clean' : s₂.numErrors = 0

theorem accepted_of_assemble {stale : Stale} {text : List Byte} {s₂ : AsmState b}
    (ok : assemble stale text = .ok s₂) : ∃ s₁, Accepted stale text s₁ s₂ := by
  simp only [assemble] at ok
  split at ok
  · rename_i halt _
    cases halt <;> cases ok
  · rename_i s₁ first
    split at ok
    · cases ok
    · rename_i clean
      split at ok
      · rename_i halt _
        cases halt <;> cases ok
      · rename_i s second
        split at ok
        · cases ok
        · rename_i clean'
          cases ok
          exact ⟨s₁, first, second, by omega, by omega⟩

theorem checkDirectives_only (s : AsmState b) : OnlyError s (checkDirectives s) := by
  unfold checkDirectives
  split
  · split
    · exact .inr ⟨_, rfl⟩
    · split <;> exact .inr ⟨_, rfl⟩
  · split
    · exact .inr ⟨_, rfl⟩
    · exact .inl rfl

theorem startPass_inSpace (pass : Pass) (s : AsmState b) : InSpace (startPass pass s) := by
  have start : (0 : Int) ≤ 0x3000 ∧ (0x3000 : Int) < 0x10000 := by decide
  exact start

theorem statement_started {stale : Stale} {s s' : AsmState b} {l : Lexeme Byte Action}
    {form : Operands}
    (inside : InSpace s) (token : l.token = .generate form) (other : s.op ≠ .ORIG)
    (acted : act stale s l = .ok s') (errors : s'.numErrors = s.numErrors) : s.sawOrig ≠ 0 := by
  obtain ⟨n, next, -⟩ := (lexeme_moves inside acted).follows errors
  have other : ¬ s.place.op = .ORIG := other
  simp only [placeLexeme, token, placeStatement, if_neg other] at next
  split at next
  · cases next
  · split at next
    · cases next
    · rename_i started
      exact started

/-- The states of the two passes before and after one lexeme of a file. -/
structure Stands (stale : Stale) (s₁ s₂ : AsmState b) (before : List (Lexeme Byte Action))
    (l : Lexeme Byte Action) (after : List (Lexeme Byte Action)) (p p' q q' : AsmState b) :
    Prop where
  reached : runPass stale (startPass .first initialState) before = .ok p
  acted : act stale p l = .ok p'
  reached' : runPass stale (startPass .second s₁) before = .ok q
  acted' : act stale q l = .ok q'
  rest : ∃ t, runPass stale p' after = .ok t ∧ t.symbols = s₁.symbols
  rest' : runPass stale q' after = .ok s₂
  place : p.place = q.place
  pass : p.pass = .first
  pass' : q.pass = .second
  errors : p'.numErrors = p.numErrors
  errors' : q'.numErrors = q.numErrors
  errors'' : s₂.numErrors = q'.numErrors

theorem accepted_stands {stale : Stale} {text : List Byte} {s₁ s₂ : AsmState b}
    (accepted : Accepted stale text s₁ s₂) {before after : List (Lexeme Byte Action)}
    {l : Lexeme Byte Action} (lexemes : yylex text = before ++ l :: after) :
    ∃ p p' q q' : AsmState b, Stands stale s₁ s₂ before l after p p' q q' := by
  obtain ⟨t, ran, rfl⟩ := map_ok accepted.first
  have only := checkDirectives_only t
  have clean := accepted.clean
  have ran' := accepted.second
  rw [lexemes, runPass_append] at ran
  rw [secondPass, lexemes, runPass_append] at ran'
  obtain ⟨p, reached, rest⟩ := ran
  obtain ⟨q, reached', rest'⟩ := ran'
  obtain ⟨p', acted, rest⟩ := runPass_cons.mp rest
  obtain ⟨q', acted', rest'⟩ := runPass_cons.mp rest'
  have start := startPass_inSpace .first (initialState (b := b))
  have start' := startPass_inSpace .second (checkDirectives t)
  have moved := lexeme_moves (runPass_inSpace start reached) acted
  have moved' := lexeme_moves (runPass_inSpace start' reached') acted'
  -- no step of either pass counts an error, because the count at the end is zero
  have first₁ := runPass_errors start reached
  have first₂ := moved.errors
  have first₃ := runPass_errors moved.inSpace rest
  have first₄ := only.errors
  have second₁ := runPass_errors start' reached'
  have second₂ := moved'.errors
  have second₃ := runPass_errors moved'.inSpace rest'
  have zero : (startPass .first (initialState (b := b))).numErrors = 0 := rfl
  have zero' : (startPass .second (checkDirectives t)).numErrors = 0 := rfl
  have clean' := accepted.clean'
  obtain ⟨place, pass⟩ := runPass_places start reached (by omega)
  obtain ⟨place', pass'⟩ := runPass_places start' reached' (by omega)
  exact ⟨p, p', q, q', reached, acted, reached', acted', ⟨t, rest, only.symbols.symm⟩, rest',
    Option.some.inj (place.symm.trans place'), pass, pass', by omega, by omega, by omega⟩

theorem Stands.inStep {stale : Stale} {s₁ s₂ p p' q q' : AsmState b}
    {before after : List (Lexeme Byte Action)} {l : Lexeme Byte Action}
    (stands : Stands stale s₁ s₂ before l after p p' q q') : InStep p p' q q' l :=
  same_move stands.place stands.pass stands.pass'
    (runPass_inSpace (startPass_inSpace ..) stands.reached)
    (runPass_inSpace (startPass_inSpace ..) stands.reached')
    stands.acted stands.acted' stands.errors stands.errors'

theorem Stands.label {stale : Stale} {s₁ s₂ p p' q q' : AsmState b}
    {before after : List (Lexeme Byte Action)} {l : Lexeme Byte Action}
    (stands : Stands stale s₁ s₂ before l after p p' q q') (label : l.token = .label) :
    q.sawOrig ≠ 0 ∧ findSymbol s₁.symbols (symName l.text) = some ⟨symName l.text, q.codeLoc⟩ := by
  have acted := stands.acted
  have inside := runPass_inSpace (startPass_inSpace ..) stands.reached
  have moved := lexeme_moves inside acted
  obtain ⟨t, rest, symbols⟩ := stands.rest
  simp only [act, label] at acted
  cases acted
  obtain ⟨started, entered⟩ := label_found l.text stands.pass stands.errors
  have kept := runPass_symbols moved.inSpace rest _ _ entered
  have location : p.codeLoc = q.codeLoc := congrArg Place.codeLoc stands.place
  have origin : p.sawOrig = q.sawOrig := congrArg Place.sawOrig stands.place
  rw [symbols, location] at kept
  exact ⟨origin ▸ started, kept⟩

/-- The passes of an assembled file agree on every statement: they stand at the same
location before it and after it, the first writes nothing, and the second writes one
word for each location between the two. Only the .ORIG that sets the origin differs,
which writes the one header word of the file. So a label is reached in the second pass
at the address the first one entered for it. -/
theorem two_passes_agree (b : Build) (stale : Stale) (text : List Byte) (s₂ : AsmState b)
    (ok : assemble stale text = .ok s₂) :
    ∃ s₁ : AsmState b, firstPass stale text = .ok s₁ ∧ secondPass stale text s₁ = .ok s₂ ∧
      ∀ before l after, yylex text = before ++ l :: after →
        ∃ p p' q q' : AsmState b,
          runPass stale (startPass .first initialState) before = .ok p ∧
          act stale p l = .ok p' ∧
          runPass stale (startPass .second s₁) before = .ok q ∧ act stale q l = .ok q' ∧
          InStep p p' q q' l ∧
          (l.token = .label →
            findSymbol s₁.symbols (symName l.text) = some ⟨symName l.text, q.codeLoc⟩) := by
  obtain ⟨s₁, accepted⟩ := accepted_of_assemble ok
  refine ⟨s₁, accepted.first, accepted.second, ?_⟩
  intro before l after lexemes
  obtain ⟨p, p', q, q', stands⟩ := accepted_stands accepted lexemes
  exact ⟨p, p', q, q', stands.reached, stands.acted, stands.reached', stands.acted',
    stands.inStep, fun label => (stands.label label).2⟩

def Outcome.isOk : Outcome b → Bool
  | .ok _ => true
  | _ => false

theorem eq_ok_of_isOk {outcome : Outcome b} (ok : outcome.isOk) : ∃ s, outcome = .ok s := by
  cases outcome with
  | ok s => exact ⟨s, rfl⟩
  | failed s => cases ok
  | undefined => cases ok

/-- `.ORIG x3000`, a labelled word and `.END`. -/
def smallSource : List Byte := bytes ".ORIG x3000\nA .FILL x5\n.END\n"

theorem two_passes_agree_small :
    ∃ s₁ s₂ : AsmState .bit16, assemble (fun _ _ => 0) smallSource = .ok s₂ ∧
      secondPass (fun _ _ => 0) smallSource s₁ = .ok s₂ := by
  have accepted : (assemble (b := .bit16) (fun _ _ => 0) smallSource).isOk := by decide +kernel
  obtain ⟨s₂, ok⟩ := eq_ok_of_isOk accepted
  obtain ⟨s₁, -, second, -⟩ := two_passes_agree .bit16 (fun _ _ => 0) smallSource s₂ ok
  exact ⟨s₁, s₂, ok, second⟩

/-- The second pass after the first lexemes of the file: its location and its words. -/
def secondPassAfter (n : Nat) : Option (Int × Nat) :=
  ((firstPass (b := .bit16) (fun _ _ => 0) smallSource).bind fun s₁ =>
    runPass (fun _ _ => 0) (startPass .second s₁) ((yylex smallSource).take n)).toOption.map
      fun s => (s.codeLoc, s.objout.length)

/-- The operands of .ORIG, the second lexeme of an accepted file, write one word and
advance the location by none. -/
theorem orig_writes_without_advance :
    (assemble (b := .bit16) (fun _ _ => 0) smallSource).isOk ∧
      secondPassAfter 1 = some (0x3000, 0) ∧ secondPassAfter 2 = some (0x3000, 1) := by
  decide +kernel

end LC3Tools.Assembler
