import LC3Tools.Assembler.Passes

/-! Where a source file puts its words. A place is what a pass carries from statement
to statement that matters for addresses; how a lexeme moves it does not mention the
pass, the symbol table or a value. Both passes follow it as long as they count no
error, so they agree on every address. -/
namespace LC3Tools.Assembler
open Flex

structure Place where
  sawOrig : Nat
  codeLoc : Int
  op : Op
  deriving DecidableEq

variable {b : Build}

def AsmState.place (s : AsmState b) : Place := ⟨s.sawOrig, s.codeLoc, s.op⟩

/-- The number a directive reads with the full width of the build. -/
def loadValue (b : Build) (text : List Byte) : Option (BitVec 64) :=
  (readVal b text b.loadRegBitCount).toOption

/-- The words of a string from behind its opening quote on, the final zero included. -/
def stringSize : List Byte → Option Nat
  | [] => none
  | c :: cs =>
    if c = byte '"' then some 1
    else if c = byte '\\' then
      match cs with
      | [] => none
      | _ :: cs => (stringSize cs).map (· + 1)
    else if c = byte '\r' then
      match cs with
      | [] => none
      | d :: rest =>
        if d = byte '\n' then (stringSize rest).map (· + 1)
        else (stringSize (d :: rest)).map (· + 1)
    else (stringSize cs).map (· + 1)

/-- The words of one statement behind .ORIG. -/
def statementSize (b : Build) (op : Op) (o1 : List Byte) (codeLoc : Int) : Option Nat :=
  match op with
  | .NONE | .ORIG | .END => some 0
  | .STRINGZ => stringSize o1.tail
  | .BLKW => (loadValue b o1).map fun v => (v &&& addrMask).toNat
  | .BLKWTO => (loadValue b o1).bind fun v =>
    if codeLoc > (v &&& addrMask).toNat then none
      else some (((v &&& addrMask).toNat : Int) - codeLoc).toNat
  | _ => some 1

/-- Where a statement leads, and the words it stands for; none where it is an error. -/
def placeStatement (b : Build) (p : Place) (operands : Operands) (opstr : List Byte) :
    Option (Place × Nat) :=
  let o1 := opstr.dropWhile isspace
  if ¬ (opFormatOk p.op).testBit operands.code then none
  else if p.op = .ORIG then
    if p.sawOrig = 0 then
      (loadValue b o1).bind fun v =>
        let next := ((v.setWidth 32).toInt + 1) % 0x10000
        -- the header is a word of the file, not of the memory image
        if next = 0 then none else some (⟨1, next - 1, .NONE⟩, 1)
    else if p.sawOrig = 1 then some (⟨2, p.codeLoc, .NONE⟩, 0)
    else some (⟨p.sawOrig, p.codeLoc, .NONE⟩, 0)
  else if p.sawOrig = 0 then none
  else (statementSize b p.op o1 p.codeLoc).bind fun n =>
    if p.codeLoc + n < 0x10000 then some (⟨p.sawOrig, p.codeLoc + n, .NONE⟩, n) else none

def placeLexeme (b : Build) (p : Place) (l : Lexeme Byte Action) : Option (Place × Nat) :=
  match l.token with
  | .opcode op => some (⟨p.sawOrig, p.codeLoc, op⟩, 0)
  | .condition => some (⟨p.sawOrig, p.codeLoc, .BR⟩, 0)
  | .finish | .beginDebug _ | .beginGarbage | .white | .label | .lineIgnored => some (p, 0)
  | .handleDebug _ | .blankLine => some (⟨p.sawOrig, p.codeLoc, .NONE⟩, 0)
  | .generate operands => placeStatement b p operands (l.text ++ 0 :: l.rest.tail)
  | .unterminatedString | .badOperands | .strayOperands | .badLine => none

/-- Values at consecutive locations. -/
def addressed : Int → List (BitVec 64) → List (Int × BitVec 64)
  | _, [] => []
  | loc, v :: vs => (loc, v) :: addressed (loc + 1) vs

theorem addressed_append (loc : Int) (vs us : List (BitVec 64)) :
    addressed loc (vs ++ us) = addressed loc vs ++ addressed (loc + vs.length) us := by
  induction vs generalizing loc with
  | nil => simp [addressed]
  | cons v vs ih =>
    have apart : loc + 1 + (vs.length : Int) = loc + ((vs.length : Int) + 1) := by omega
    simp only [List.cons_append, addressed, ih, List.length_cons, Int.natCast_add,
      Int.cast_ofNat_Int,
      apart]

/-- What the second pass leaves of the values written: a word of the object file for
each, and behind the header a line of the listing. -/
structure Emitted (s s' : AsmState b) (vs : List (BitVec 64)) : Prop where
  objout : s'.objout = s.objout ++ if s.pass = .second then vs.map b.swap else []
  lstout : s'.lstout =
    s.lstout ++ if s.pass = .second ∧ s.sawOrig ≠ 0 then addressed s.codeLoc vs else []

/-- The effect of writing `n` words. -/
structure Wrote (s s' : AsmState b) (n : Nat) : Prop where
  pass : s'.pass = s.pass
  errors : s'.numErrors = s.numErrors
  sawOrig : s'.sawOrig = s.sawOrig
  sawEnd : s'.sawEnd = s.sawEnd
  op : s'.op = s.op
  symbols : s'.symbols = s.symbols
  codeLoc : s'.codeLoc = s.codeLoc + n
  room : s'.codeLoc < 0x10000
  emitted : ∃ vs, vs.length = n ∧ Emitted s s' vs

namespace Wrote
variable {s s' s'' : AsmState b} {n m : Nat}

theorem nothing (room : s.codeLoc < 0x10000) : Wrote s s 0 :=
  ⟨rfl, rfl, rfl, rfl, rfl, rfl, by simp, room, [], rfl, by simp, by simp [addressed]⟩

theorem trans (first : Wrote s s' n) (second : Wrote s' s'' m) : Wrote s s'' (n + m) := by
  obtain ⟨vs, size, emitted⟩ := first.emitted
  obtain ⟨us, size', emitted'⟩ := second.emitted
  refine ⟨second.pass.trans first.pass, second.errors.trans first.errors,
    second.sawOrig.trans first.sawOrig, second.sawEnd.trans first.sawEnd,
    second.op.trans first.op, second.symbols.trans first.symbols, ?_, second.room,
    vs ++ us, ?_, ?_, ?_⟩
  · rw [second.codeLoc, first.codeLoc]
    omega
  · rw [List.length_append, size, size']
  · rw [emitted'.objout, emitted.objout, first.pass, List.append_assoc]
    split <;> simp
  · rw [emitted'.lstout, emitted.lstout, first.pass, first.sawOrig, first.codeLoc,
      List.append_assoc, addressed_append, size]
    split <;> simp

theorem ofLine {k : Nat} (wrote : Wrote { s with lineNum := k } s' n) : Wrote s s' n :=
  ⟨wrote.pass, wrote.errors, wrote.sawOrig, wrote.sawEnd, wrote.op, wrote.symbols,
    wrote.codeLoc, wrote.room, by
      obtain ⟨vs, size, emitted⟩ := wrote.emitted
      exact ⟨vs, size, emitted.objout, emitted.lstout⟩⟩

end Wrote

/-- Locations between the statements. -/
def InSpace (s : AsmState b) : Prop := 0 ≤ s.codeLoc ∧ s.codeLoc < 0x10000

/-- All that one call of `write_value` does when it comes back. -/
structure ValueWritten (s s' : AsmState b) (val : BitVec 64) : Prop where
  more : (s.codeLoc + 1) % 0x10000 ≠ 0
  codeLoc : s'.codeLoc = (s.codeLoc + 1) % 0x10000
  pass : s'.pass = s.pass
  errors : s'.numErrors = s.numErrors
  sawOrig : s'.sawOrig = s.sawOrig
  sawEnd : s'.sawEnd = s.sawEnd
  op : s'.op = s.op
  symbols : s'.symbols = s.symbols
  objout : s'.objout = s.objout ++ if s.pass = .second then [b.swap val] else []
  lstout : s'.lstout =
    s.lstout ++ if s.pass = .second ∧ s.sawOrig ≠ 0 then [(s.codeLoc, val)] else []

theorem writeValue_ok {s s' : AsmState b} {val : BitVec 64} (ok : writeValue s val = .ok s') :
    ValueWritten s s' val := by
  simp only [writeValue] at ok
  split at ok
  · cases ok
  · rename_i more
    split at ok
    · rename_i first
      cases ok
      exact ⟨more, rfl, rfl, rfl, rfl, rfl, rfl, rfl, by simp [first], by simp [first]⟩
    · rename_i other
      have second : s.pass = .second := by
        cases pass : s.pass with
        | first => exact absurd pass other
        | second => rfl
      split at ok
      · rename_i start
        cases ok
        exact ⟨more, rfl, rfl, rfl, rfl, rfl, rfl, rfl, by simp [second], by simp [start]⟩
      · rename_i started
        cases ok
        exact ⟨more, rfl, rfl, rfl, rfl, rfl, rfl, rfl, by simp [second], by simp [second, started]⟩

theorem writeValue_wrote {s s' : AsmState b} {val : BitVec 64} (inside : InSpace s)
    (ok : writeValue s val = .ok s') : Wrote s s' 1 := by
  have written := writeValue_ok ok
  obtain ⟨low, high⟩ := inside
  have more := written.more
  have next : (s.codeLoc + 1) % 0x10000 = s.codeLoc + 1 := by omega
  refine ⟨written.pass, written.errors, written.sawOrig, written.sawEnd, written.op,
    written.symbols, written.codeLoc.trans next, ?_, [val], rfl, written.objout, written.lstout⟩
  rw [written.codeLoc]
  omega

theorem Wrote.inSpace {s s' : AsmState b} {n : Nat} (inside : InSpace s) (wrote : Wrote s s' n) :
    InSpace s' := by
  refine ⟨?_, wrote.room⟩
  rw [wrote.codeLoc]
  have := inside.1
  omega

theorem writeInstructionValue_wrote {s s' : AsmState b} {val : BitVec 64} (inside : InSpace s)
    (ok : writeInstructionValue s val = .ok s') : Wrote s s' 1 := by
  unfold writeInstructionValue at ok
  split at ok <;> exact writeValue_wrote inside ok

theorem bind_ok {r : Step b} {f : AsmState b → Step b} {s' : AsmState b}
    (ok : r.bind f = .ok s') : ∃ s, r = .ok s ∧ f s = .ok s' := by
  cases r with
  | error halt => cases ok
  | ok s => exact ⟨s, rfl, ok⟩

theorem writeZeros_wrote {n : Nat} {s s' : AsmState b} (inside : InSpace s)
    (ok : writeZeros s n = .ok s') : Wrote s s' n := by
  induction n generalizing s with
  | zero =>
    cases ok
    exact Wrote.nothing inside.2
  | succ n ih =>
    obtain ⟨t, first, rest⟩ := bind_ok ok
    have one := writeValue_wrote inside first
    have more := one.trans (ih (one.inSpace inside) rest)
    rwa [Nat.add_comm] at more

theorem character_wrote {s s' : AsmState b} {val : BitVec 64} {text : List Byte} (k : Nat)
    (inside : InSpace s)
    (rest : ∀ {t t' : AsmState b}, InSpace t → writeString t text = .ok t' →
      ∃ n, stringSize text = some n ∧ Wrote t t' n)
    (ok : ((writeValue { s with lineNum := k } val).bind fun t => writeString t text) = .ok s') :
    ∃ n, (stringSize text).map (· + 1) = some n ∧ Wrote s s' n := by
  obtain ⟨t, first, later⟩ := bind_ok ok
  have one : Wrote s t 1 := (writeValue_wrote (s := { s with lineNum := k }) inside first).ofLine
  obtain ⟨n, size, wrote⟩ := rest (one.inSpace inside) later
  have all := one.trans wrote
  rw [Nat.add_comm] at all
  exact ⟨n + 1, by rw [size]; rfl, all⟩

theorem writeString_wrote {text : List Byte} {s s' : AsmState b} (inside : InSpace s)
    (ok : writeString s text = .ok s') : ∃ n, stringSize text = some n ∧ Wrote s s' n := by
  induction text using stringSize.induct generalizing s s' with
  | case1 => cases ok
  | case2 cs =>
    rw [writeString.eq_def] at ok
    rw [stringSize.eq_def]
    exact ⟨1, rfl, writeValue_wrote inside ok⟩
  | case3 quote => cases ok
  | case4 quote e cs ih =>
    rw [writeString.eq_def] at ok
    rw [stringSize.eq_def]
    exact character_wrote s.lineNum inside ih ok
  | case5 quote slash => cases ok
  | case6 rest quote slash ih =>
    rw [writeString.eq_def] at ok
    rw [stringSize.eq_def]
    exact character_wrote (s.lineNum + 1) inside ih ok
  | case7 d rest feed quote slash ih =>
    rw [writeString.eq_def] at ok
    rw [stringSize.eq_def]
    simp only [if_neg quote, if_neg slash, if_true, if_neg feed] at ok ⊢
    exact character_wrote (s.lineNum + 1) inside ih ok
  | case8 c cs quote slash ret ih =>
    rw [writeString.eq_def] at ok
    rw [stringSize.eq_def]
    simp only [if_neg quote, if_neg slash, if_neg ret] at ok ⊢
    split at ok
    · exact character_wrote (s.lineNum + 1) inside ih ok
    · exact character_wrote s.lineNum inside ih ok

/-- A step that changes nothing but the error count and the messages. -/
def OnlyError (s s' : AsmState b) : Prop := s' = s ∨ ∃ m, s' = countError s m

section errors
variable {s s' : AsmState b}

theorem OnlyError.unchanged (only : OnlyError s s') (errors : s'.numErrors = s.numErrors) :
    s' = s := by
  rcases only with same | ⟨m, rfl⟩
  · exact same
  · simp [countError] at errors

theorem OnlyError.errors (only : OnlyError s s') : s.numErrors ≤ s'.numErrors := by
  rcases only with rfl | ⟨m, rfl⟩
  · exact Nat.le_refl _
  · exact Nat.le_succ _

theorem OnlyError.inSpace (only : OnlyError s s') (inside : InSpace s) : InSpace s' := by
  rcases only with rfl | ⟨m, rfl⟩
  · exact inside
  · exact inside

theorem OnlyError.symbols (only : OnlyError s s') : s'.symbols = s.symbols := by
  rcases only with rfl | ⟨m, rfl⟩
  · rfl
  · rfl

theorem OnlyError.codeLoc (only : OnlyError s s') : s'.codeLoc = s.codeLoc := by
  rcases only with rfl | ⟨m, rfl⟩
  · rfl
  · rfl

theorem OnlyError.objout (only : OnlyError s s') : s'.objout = s.objout := by
  rcases only with rfl | ⟨m, rfl⟩
  · rfl
  · rfl

theorem OnlyError.lstout (only : OnlyError s s') : s'.lstout = s.lstout := by
  rcases only with rfl | ⟨m, rfl⟩
  · rfl
  · rfl

theorem orError_only (otherwise : BitVec 64) (r : Except (List Byte) (BitVec 64)) :
    OnlyError s (orError s otherwise r).2 := by
  cases r with
  | ok v => exact .inl rfl
  | error m => exact .inr ⟨m, rfl⟩

theorem findLabel_only (text : List Byte) (bits : Nat) : OnlyError s (findLabel s text bits).2 := by
  simp only [findLabel]
  split
  · exact .inl rfl
  · exact orError_only ..

end errors

/-- A step counts an error, or it writes as many words as it should. -/
structure Follows (size : Option Nat) (s s' : AsmState b) : Prop where
  errors : s.numErrors ≤ s'.numErrors
  inSpace : InSpace s'
  symbols : s'.symbols = s.symbols
  size : s'.numErrors = s.numErrors → ∃ n, size = some n ∧ Wrote s s' n

theorem Follows.ofRead {size : Option Nat} {s t s' : AsmState b} {n : Nat} (inside : InSpace s)
    (only : OnlyError s t) (wrote : Wrote t s' n) (expected : t = s → size = some n) :
    Follows size s s' := by
  have errors := wrote.errors
  refine ⟨errors ▸ only.errors, wrote.inSpace (only.inSpace inside),
    wrote.symbols.trans only.symbols, ?_⟩
  intro same
  have unchanged : t = s := only.unchanged (errors ▸ same)
  exact ⟨n, expected unchanged, unchanged ▸ wrote⟩

section generate
variable {s t s' : AsmState b} {val : BitVec 64} {o1 : List Byte}

theorem follows_instruction (inside : InSpace s) (ok : writeInstructionValue s val = .ok s') :
    Follows (some 1) s s' :=
  .ofRead inside (.inl rfl) (writeInstructionValue_wrote inside ok) fun _ => rfl

theorem follows_read_instruction (inside : InSpace s) (only : OnlyError s t)
    (ok : writeInstructionValue t val = .ok s') : Follows (some 1) s s' :=
  .ofRead inside only (writeInstructionValue_wrote (only.inSpace inside) ok) fun _ => rfl

theorem countError_ne (m : List Byte) : countError s m ≠ s := by
  intro same
  have errors := congrArg AsmState.numErrors same
  simp [countError] at errors

theorem follows_blkw (inside : InSpace s) (op : s.op = .BLKW)
    (ok : writeZeros (readLoadInto s o1 val).2 ((readLoadInto s o1 val).1 &&& addrMask).toNat =
      .ok s') : Follows (statementSize b s.op o1 s.codeLoc) s s' := by
  have only : OnlyError s (readLoadInto s o1 val).2 := orError_only ..
  have wrote := writeZeros_wrote (only.inSpace inside) ok
  refine .ofRead inside only wrote ?_
  intro unchanged
  cases read : readVal b o1 b.loadRegBitCount with
  | ok v => simp [statementSize, op, loadValue, readLoadInto, orError, read, Except.toOption]
  | error m =>
    simp only [readLoadInto, orError, read] at unchanged
    exact absurd unchanged (countError_ne m)

theorem follows_blkwto (inside : InSpace s) (op : s.op = .BLKWTO)
    (ok : (if (readLoadInto s o1 val).2.codeLoc > ((readLoadInto s o1 val).1 &&& addrMask).toNat
      then .ok (countError (readLoadInto s o1 val).2
        (bytes "requested address is in the past\n"))
      else writeZeros (readLoadInto s o1 val).2
        ((((readLoadInto s o1 val).1 &&& addrMask).toNat : Int) -
          (readLoadInto s o1 val).2.codeLoc).toNat) = .ok s') :
    Follows (statementSize b s.op o1 s.codeLoc) s s' := by
  have only : OnlyError s (readLoadInto s o1 val).2 := orError_only ..
  split at ok
  · cases ok
    refine ⟨Nat.le_succ_of_le only.errors, only.inSpace inside, only.symbols, ?_⟩
    intro same
    have := only.errors
    simp only [countError] at same
    omega
  · rename_i ahead
    refine .ofRead inside only (writeZeros_wrote (only.inSpace inside) ok) ?_
    intro unchanged
    cases read : readVal b o1 b.loadRegBitCount with
    | ok v =>
      simp only [readLoadInto, orError, read] at ahead
      simp only [statementSize, op, loadValue, readLoadInto, orError, read, Except.toOption,
        Option.bind_some, if_neg ahead]
    | error m =>
      simp only [readLoadInto, orError, read] at unchanged
      exact absurd unchanged (countError_ne m)

theorem generateOp_follows {operands : Operands} {o3 : List Byte} {r1 r2 r3 : BitVec 64}
    (inside : InSpace s) (ok : generateOp s operands o1 o3 r1 r2 r3 val = .ok s') :
    Follows (statementSize b s.op o1 s.codeLoc) s s' := by
  cases op : s.op with
  | JMP | JSRR | LD | LDI | LEA | NOT | ST | STI | GETC | HALT | IN | OUT | PUTS | PUTSP | RET
  | DIV | MOD | MUL | NOP =>
    simp only [generateOp, op] at ok
    exact follows_instruction inside ok
  | LDR | RTI | STR | TRAP =>
    simp only [generateOp, op] at ok
    exact follows_read_instruction inside (orError_only ..) ok
  | ADD | AND | SLL | SRA =>
    simp only [generateOp, op] at ok
    split at ok
    · exact follows_read_instruction inside (orError_only ..) ok
    · exact follows_instruction inside ok
  | BR | JSR =>
    simp only [generateOp, op] at ok
    split at ok
    · exact follows_read_instruction inside (orError_only ..) ok
    · exact follows_read_instruction inside (findLabel_only ..) ok
  | FILL =>
    simp only [generateOp, op] at ok
    split at ok
    · exact .ofRead inside (orError_only ..)
        (writeValue_wrote ((orError_only ..).inSpace inside) ok)
        fun _ => rfl
    · exact .ofRead inside (findLabel_only ..)
        (writeValue_wrote ((findLabel_only ..).inSpace inside) ok)
        fun _ => rfl
  | STRINGZ =>
    simp only [generateOp, op] at ok
    obtain ⟨n, size, wrote⟩ := writeString_wrote inside ok
    exact .ofRead inside (.inl rfl) wrote fun _ => size
  | NONE | ORIG | END =>
    simp only [generateOp, op] at ok
    cases ok
    exact .ofRead inside (.inl rfl) (Wrote.nothing inside.2) fun _ => rfl
  | BLKW =>
    simp only [generateOp, op] at ok
    exact op ▸ follows_blkw inside op ok
  | BLKWTO =>
    simp only [generateOp, op] at ok
    exact op ▸ follows_blkwto inside op ok

end generate

/-- The symbol table stays, or the label of that name is entered at the location. -/
def Enters (s s' : AsmState b) (name : Option (List Byte)) : Prop :=
  s'.symbols = s.symbols ∨ ∃ n, name = some n ∧ s.pass = .first ∧
    addSymbol s.symbols n s.codeLoc false = some s'.symbols

theorem Enters.keeps {s s' : AsmState b} {name : Option (List Byte)} (enters : Enters s s' name) :
    Keeps s.symbols s'.symbols := by
  rcases enters with same | ⟨n, -, -, added⟩
  · rw [same]
    exact Keeps.refl _
  · exact keeps_addSymbol added

/-- A lexeme moves the place as the layout says, or it counts an error. -/
structure Moves (s s' : AsmState b) (next : Option (Place × Nat)) (name : Option (List Byte)) :
    Prop where
  errors : s.numErrors ≤ s'.numErrors
  inSpace : InSpace s'
  enters : Enters s s' name
  follows : s'.numErrors = s.numErrors → ∃ n, next = some (s'.place, n) ∧ s'.pass = s.pass ∧
    ∃ vs, vs.length = n ∧ Emitted s s' vs

theorem Moves.ofError {s s' : AsmState b} (counted : s'.numErrors = s.numErrors + 1)
    (inside : InSpace s') (symbols : s'.symbols = s.symbols) (next : Option (Place × Nat))
    (name : Option (List Byte)) : Moves s s' next name :=
  ⟨by omega, inside, .inl symbols, fun same => by omega⟩

theorem Moves.ofSame {s s' : AsmState b} {next : Place} {name : Option (List Byte)}
    (inside : InSpace s') (errors : s'.numErrors = s.numErrors) (enters : Enters s s' name)
    (pass : s'.pass = s.pass) (objout : s'.objout = s.objout) (lstout : s'.lstout = s.lstout)
    (place : s'.place = next) : Moves s s' (some (next, 0)) name :=
  ⟨Nat.le_of_eq errors.symm, inside, enters,
    fun _ => ⟨0, by rw [place], pass, [], rfl, by simp [objout], by simp [lstout, addressed]⟩⟩

theorem map_ok {r : Step b} {f : AsmState b → AsmState b} {s' : AsmState b}
    (ok : r.map f = .ok s') : ∃ t, r = .ok t ∧ f t = s' := by
  cases r with
  | error halt => cases ok
  | ok t => exact ⟨t, rfl, Except.ok.inj ok⟩

theorem header_moves {s s' : AsmState b} {o1 : List Byte} {v : BitVec 64} (start : s.sawOrig = 0)
    (read : readVal b o1 b.loadRegBitCount = .ok v)
    (ok : ((writeValue { s with codeLoc := (v.setWidth 32).toInt }
        (BitVec.ofInt 64 (v.setWidth 32).toInt)).map fun s =>
      newInstLine { s with codeLoc := s.codeLoc - 1, sawOrig := 1 }) = .ok s') :
    Moves s s' ((loadValue b o1).bind fun v =>
      let next := ((v.setWidth 32).toInt + 1) % 0x10000
      if next = 0 then none else some (⟨1, next - 1, .NONE⟩, 1)) none := by
  obtain ⟨t, wrote, rfl⟩ := map_ok ok
  have written := writeValue_ok wrote
  simp only [loadValue, read, Except.toOption, Option.bind_some]
  rw [if_neg written.more]
  have here : t.codeLoc = ((v.setWidth 32).toInt + 1) % 0x10000 := written.codeLoc
  refine ⟨Nat.le_of_eq written.errors.symm, ?_, ?_, ?_⟩
  · have more : ((v.setWidth 32).toInt + 1) % 0x10000 ≠ 0 := written.more
    simp only [InSpace, newInstLine]
    omega
  · exact .inl written.symbols
  · intro _
    refine ⟨1, ?_, written.pass, [BitVec.ofInt 64 (v.setWidth 32).toInt], rfl, written.objout, ?_⟩
    · simp only [AsmState.place, newInstLine, here]
    · have listed : t.lstout = s.lstout ++ _ := written.lstout
      rw [if_neg (fun h => h.2 start)] at listed ⊢
      exact listed

theorem orig_moves {s s' : AsmState b} {opstr : List Byte} (inside : InSpace s)
    (op : s.op = .ORIG) {operands : Operands} (format : (opFormatOk s.op).testBit operands.code)
    (ok : generateOrig s (opstr.dropWhile isspace) = .ok s') :
    Moves s s' (placeStatement b s.place operands opstr) none := by
  unfold placeStatement
  rw [if_neg (show ¬ ¬ (opFormatOk s.place.op).testBit operands.code from not_not_intro format),
    if_pos (show s.place.op = .ORIG from op)]
  unfold generateOrig at ok
  split at ok
  · rename_i start
    rw [if_pos (show s.place.sawOrig = 0 from start)]
    cases read : readVal b (opstr.dropWhile isspace) b.loadRegBitCount with
    | error m =>
      simp only [read] at ok
      cases ok
      have start : (0 : Int) ≤ 0x3000 ∧ (0x3000 : Int) < 0x10000 := by decide
      exact Moves.ofError (by rfl) (by exact start) (by rfl) _ _
    | ok v =>
      simp only [read] at ok
      exact header_moves start read ok
  · rename_i started
    rw [if_neg (show ¬ s.place.sawOrig = 0 from started)]
    split at ok
    · rename_i once
      cases ok
      rw [if_pos (show s.place.sawOrig = 1 from once)]
      exact .ofSame inside rfl (.inl rfl) rfl rfl rfl rfl
    · rename_i again
      cases ok
      rw [if_neg (show ¬ s.place.sawOrig = 1 from again)]
      exact .ofSame inside rfl (.inl rfl) rfl rfl rfl rfl

theorem generated_moves {s t s' : AsmState b} {operands : Operands} {opstr o3 : List Byte}
    {r1 r2 r3 val : BitVec 64} (inside : InSpace s) (only : OnlyError s t)
    (other : s.op ≠ .ORIG) (started : s.sawOrig ≠ 0)
    (format : (opFormatOk s.op).testBit operands.code)
    (ok : (generateOp t operands (opstr.dropWhile isspace) o3 r1 r2 r3 val).map newInstLine =
      .ok s') : Moves s s' (placeStatement b s.place operands opstr) none := by
  obtain ⟨u, generated, rfl⟩ := map_ok ok
  have follows := generateOp_follows (only.inSpace inside) generated
  refine ⟨Nat.le_trans only.errors follows.errors, follows.inSpace, ?_, ?_⟩
  · exact .inl (follows.symbols.trans only.symbols)
  · intro same
    have unchanged : t = s :=
      only.unchanged (Nat.le_antisymm (Nat.le_trans follows.errors (Nat.le_of_eq same)) only.errors)
    subst unchanged
    obtain ⟨n, size, wrote⟩ := follows.size same
    refine ⟨n, ?_, wrote.pass, ?_⟩
    rotate_left
    · obtain ⟨vs, length, emitted⟩ := wrote.emitted
      exact ⟨vs, length, emitted.objout, emitted.lstout⟩
    have room : t.codeLoc + n < 0x10000 := wrote.codeLoc ▸ wrote.room
    unfold placeStatement
    rw [if_neg (show ¬ ¬ (opFormatOk t.place.op).testBit operands.code from not_not_intro format),
      if_neg (show ¬ t.place.op = .ORIG from other),
      if_neg (show ¬ t.place.sawOrig = 0 from started)]
    have expected : statementSize b t.place.op (opstr.dropWhile isspace) t.place.codeLoc = some n :=
      size
    rw [expected, Option.bind_some, if_pos (show t.place.codeLoc + n < 0x10000 from room)]
    simp only [AsmState.place, newInstLine, wrote.sawOrig, wrote.codeLoc]

theorem statement_moves {stale : Stale} {s s' : AsmState b} {operands : Operands}
    {opstr : List Byte} (inside : InSpace s)
    (ok : generateInstruction stale s operands opstr = .ok s') :
    Moves s s' (placeStatement b s.place operands opstr) none := by
  simp only [generateInstruction] at ok
  split at ok
  · cases ok
    exact Moves.ofError (by rfl) (by exact inside) (by rfl) _ _
  · rename_i format
    split at ok
    · rename_i orig
      exact orig_moves inside orig (not_not.mp format) ok
    · rename_i other
      split at ok
      · cases ok
        exact Moves.ofError (by rfl) (by exact inside) (by rfl) _ _
      · rename_i started
        refine generated_moves inside ?_ other started (not_not.mp format) ok
        cases operands with
        | RI => exact orError_only ..
        | RL => exact findLabel_only ..
        | _ => exact .inl rfl

theorem label_moves {s : AsmState b} (inside : InSpace s) (lname : List Byte) :
    Moves s (foundLabel s lname) (some (s.place, 0)) (some (symName lname)) := by
  simp only [foundLabel]
  split
  · rename_i first
    split
    · exact Moves.ofError (by rfl) (by exact inside) (by rfl) _ _
    · split
      · exact Moves.ofError (by rfl) (by exact inside) (by rfl) _ _
      · rename_i added
        exact .ofSame inside rfl (.inr ⟨_, rfl, first, added⟩) rfl rfl rfl rfl
  · exact .ofSame inside rfl (.inl rfl) rfl rfl rfl rfl

/-- The name a lexeme enters. -/
def labelName (l : Lexeme Byte Action) : Option (List Byte) :=
  match l.token with
  | .label => some (symName l.text)
  | _ => none

theorem lexeme_moves {stale : Stale} {s s' : AsmState b} {l : Lexeme Byte Action}
    (inside : InSpace s) (ok : act stale s l = .ok s') :
    Moves s s' (placeLexeme b s.place l) (labelName l) := by
  cases token : l.token with
  | generate operands =>
    simp only [act, token] at ok
    simp only [placeLexeme, labelName, token]
    exact statement_moves inside ok
  | unterminatedString | badOperands | strayOperands | badLine =>
    simp only [act, token] at ok
    cases ok
    exact Moves.ofError (by rfl) (by exact inside) (by rfl) _ _
  | label =>
    simp only [act, token] at ok
    simp only [placeLexeme, labelName, token]
    cases ok
    exact label_moves inside l.text
  | lineIgnored =>
    simp only [act, token] at ok
    simp only [placeLexeme, labelName, token]
    cases ok
    unfold lineIgnored
    split
    · exact .ofSame inside rfl (.inl rfl) rfl rfl rfl rfl
    · exact .ofSame inside rfl (.inl rfl) rfl rfl rfl rfl
  | _ =>
    simp only [act, token] at ok
    simp only [placeLexeme, labelName, token]
    cases ok
    exact .ofSame inside rfl (.inl rfl) rfl rfl rfl rfl

/-- The places of a run of lexemes, with the words each of them stands for. -/
def placeRun (b : Build) : Place → List (Lexeme Byte Action) → Option Place
  | p, [] => some p
  | p, l :: ls => (placeLexeme b p l).bind fun next => placeRun b next.1 ls

theorem runPass_cons {stale : Stale} {s s' : AsmState b} {l : Lexeme Byte Action}
    {ls : List (Lexeme Byte Action)} :
    runPass stale s (l :: ls) = .ok s' ↔
      ∃ t, act stale s l = .ok t ∧ runPass stale t ls = .ok s' := by
  constructor
  · exact bind_ok
  · rintro ⟨t, first, rest⟩
    simp only [runPass, first, Except.bind, rest]

theorem runPass_last {stale : Stale} {s : AsmState b} {l : Lexeme Byte Action} :
    runPass stale s [l] = act stale s l := by
  rw [runPass]
  cases act stale s l <;> rfl

theorem runPass_append {stale : Stale} {s s' : AsmState b} {ls ms : List (Lexeme Byte Action)} :
    runPass stale s (ls ++ ms) = .ok s' ↔
      ∃ t, runPass stale s ls = .ok t ∧ runPass stale t ms = .ok s' := by
  induction ls generalizing s with
  | nil => simp [runPass]
  | cons l ls ih =>
    simp only [List.cons_append, runPass_cons, ih]
    constructor
    · rintro ⟨t, first, u, middle, last⟩
      exact ⟨u, ⟨t, first, middle⟩, last⟩
    · rintro ⟨u, ⟨t, first, middle⟩, last⟩
      exact ⟨t, first, u, middle, last⟩

theorem runPass_inSpace {stale : Stale} {s s' : AsmState b} {ls : List (Lexeme Byte Action)}
    (inside : InSpace s) (ok : runPass stale s ls = .ok s') : InSpace s' := by
  induction ls generalizing s with
  | nil =>
    cases ok
    exact inside
  | cons l ls ih =>
    obtain ⟨t, first, rest⟩ := runPass_cons.mp ok
    exact ih (lexeme_moves inside first).inSpace rest

theorem runPass_errors {stale : Stale} {s s' : AsmState b} {ls : List (Lexeme Byte Action)}
    (inside : InSpace s) (ok : runPass stale s ls = .ok s') : s.numErrors ≤ s'.numErrors := by
  induction ls generalizing s with
  | nil =>
    cases ok
    exact Nat.le_refl _
  | cons l ls ih =>
    obtain ⟨t, first, rest⟩ := runPass_cons.mp ok
    have moves := lexeme_moves inside first
    exact Nat.le_trans moves.errors (ih moves.inSpace rest)

theorem runPass_places {stale : Stale} {s s' : AsmState b} {ls : List (Lexeme Byte Action)}
    (inside : InSpace s) (ok : runPass stale s ls = .ok s') (errors : s'.numErrors = s.numErrors) :
    placeRun b s.place ls = some s'.place ∧ s'.pass = s.pass := by
  induction ls generalizing s with
  | nil =>
    cases ok
    exact ⟨rfl, rfl⟩
  | cons l ls ih =>
    obtain ⟨t, first, rest⟩ := runPass_cons.mp ok
    have moves := lexeme_moves inside first
    have later := runPass_errors moves.inSpace rest
    have earlier := moves.errors
    obtain ⟨n, next, pass, -⟩ := moves.follows (by omega)
    obtain ⟨places, pass'⟩ := ih moves.inSpace rest (by omega)
    refine ⟨?_, pass'.trans pass⟩
    rw [placeRun, next]
    exact places

end LC3Tools.Assembler
