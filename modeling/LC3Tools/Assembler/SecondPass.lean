import Mathlib.Logic.Relation
import LC3Tools.Assembler.TwoPasses

/-! The second pass behind a first pass without errors. Whatever labels it misses, it is
at every statement where the first pass was, with the symbols of the first pass, and it
comes to the end of the file. -/
namespace LC3Tools.Assembler
open Flex

variable {b : Build}

/-- The things a statement leaves alone, whether it counts an error or not. -/
structure Untouched {b : Build} (s s' : AsmState b) : Prop where
  pass : s'.pass = s.pass
  symbols : s'.symbols = s.symbols
  ccode : s'.ccode = s.ccode

namespace Untouched
variable {s s' s'' : AsmState b}

theorem refl (s : AsmState b) : Untouched s s := ⟨rfl, rfl, rfl⟩

theorem trans (first : Untouched s s') (second : Untouched s' s'') : Untouched s s'' :=
  ⟨second.pass.trans first.pass, second.symbols.trans first.symbols, second.ccode.trans first.ccode⟩

theorem ofError (only : OnlyError s s') : Untouched s s' := by
  rcases only with rfl | ⟨m, rfl⟩
  · exact refl s'
  · exact ⟨rfl, rfl, rfl⟩

end Untouched

theorem writeValue_untouched {s s' : AsmState b} {val : BitVec 64}
    (ok : writeValue s val = .ok s') :
    Untouched s s' := by
  simp only [writeValue] at ok
  split at ok
  · cases ok
  · split at ok
    · cases ok
      exact ⟨rfl, rfl, rfl⟩
    · split at ok <;> cases ok <;> exact ⟨rfl, rfl, rfl⟩

/-! What a statement does is a chain of values written, errors counted and lines passed. -/

inductive Piece : AsmState b → AsmState b → Prop where
  | error (s : AsmState b) (m : List Byte) : Piece s (countError s m)
  | line (s : AsmState b) (k : Nat) : Piece s { s with lineNum := k }
  | value {s s' : AsmState b} {val : BitVec 64} (ok : writeValue s val = .ok s') : Piece s s'

abbrev Pieces : AsmState b → AsmState b → Prop := Relation.ReflTransGen Piece

theorem pieces_error {s s' : AsmState b} (only : OnlyError s s') : Pieces s s' := by
  rcases only with rfl | ⟨m, rfl⟩
  · exact .refl
  · exact .single (.error s m)

section pieces
variable {s t s' : AsmState b} {val : BitVec 64}

theorem pieces_value (ok : writeValue s val = .ok s') : Pieces s s' := .single (.value ok)

theorem pieces_instruction (ok : writeInstructionValue s val = .ok s') : Pieces s s' := by
  unfold writeInstructionValue at ok
  split at ok <;> exact pieces_value ok

theorem pieces_read (only : OnlyError s t) (ok : writeInstructionValue t val = .ok s') :
    Pieces s s' :=
  (pieces_error only).trans (pieces_instruction ok)

theorem pieces_zeros {n : Nat} (ok : writeZeros s n = .ok s') : Pieces s s' := by
  induction n generalizing s with
  | zero =>
    cases ok
    exact .refl
  | succ n ih =>
    obtain ⟨t, first, rest⟩ := bind_ok ok
    exact (pieces_value first).trans (ih rest)

theorem pieces_character {text : List Byte} {k : Nat}
    (rest : ∀ {t t' : AsmState b}, writeString t text = .ok t' → Pieces t t')
    (ok : ((writeValue { s with lineNum := k } val).bind fun t => writeString t text) = .ok s') :
    Pieces s s' := by
  obtain ⟨t, first, later⟩ := bind_ok ok
  exact .head (.line s k) ((pieces_value first).trans (rest later))

theorem pieces_string {text : List Byte} (ok : writeString s text = .ok s') : Pieces s s' := by
  induction text using stringSize.induct generalizing s s' with
  | case1 => cases ok
  | case2 cs =>
    rw [writeString.eq_def] at ok
    exact pieces_value ok
  | case3 quote => cases ok
  | case4 quote e cs ih =>
    rw [writeString.eq_def] at ok
    exact pieces_character (k := s.lineNum) ih ok
  | case5 quote slash => cases ok
  | case6 rest quote slash ih =>
    rw [writeString.eq_def] at ok
    exact pieces_character (k := s.lineNum + 1) ih ok
  | case7 d rest feed quote slash ih =>
    rw [writeString.eq_def] at ok
    simp only [if_neg quote, if_neg slash, if_true, if_neg feed] at ok
    exact pieces_character (k := s.lineNum + 1) ih ok
  | case8 c cs quote slash ret ih =>
    rw [writeString.eq_def] at ok
    simp only [if_neg quote, if_neg slash, if_neg ret] at ok
    split at ok
    · exact pieces_character (k := s.lineNum + 1) ih ok
    · exact pieces_character (k := s.lineNum) ih ok

theorem generateOp_pieces {operands : Operands} {o1 o3 : List Byte} {r1 r2 r3 : BitVec 64}
    (ok : generateOp s operands o1 o3 r1 r2 r3 val = .ok s') : Pieces s s' := by
  cases op : s.op with
  | JMP | JSRR | LD | LDI | LEA | NOT | ST | STI | GETC | HALT | IN | OUT | PUTS | PUTSP | RET
  | DIV | MOD | MUL | NOP =>
    simp only [generateOp, op] at ok
    exact pieces_instruction ok
  | LDR | RTI | STR | TRAP =>
    simp only [generateOp, op] at ok
    exact pieces_read (orError_only ..) ok
  | ADD | AND | SLL | SRA =>
    simp only [generateOp, op] at ok
    split at ok
    · exact pieces_read (orError_only ..) ok
    · exact pieces_instruction ok
  | BR | JSR =>
    simp only [generateOp, op] at ok
    split at ok
    · exact pieces_read (orError_only ..) ok
    · exact pieces_read (findLabel_only ..) ok
  | FILL =>
    simp only [generateOp, op] at ok
    split at ok
    · exact (pieces_error (orError_only ..)).trans (pieces_value ok)
    · exact (pieces_error (findLabel_only ..)).trans (pieces_value ok)
  | STRINGZ =>
    simp only [generateOp, op] at ok
    exact pieces_string ok
  | NONE | ORIG | END =>
    simp only [generateOp, op] at ok
    cases ok
    exact .refl
  | BLKW =>
    simp only [generateOp, op] at ok
    exact (pieces_error (orError_only ..)).trans (pieces_zeros ok)
  | BLKWTO =>
    simp only [generateOp, op] at ok
    have read : Pieces s (readLoadInto s o1 val).2 := pieces_error (orError_only ..)
    split at ok
    · cases ok
      exact read.tail (.error _ _)
    · exact read.trans (pieces_zeros ok)

end pieces

theorem Pieces.untouched {s s' : AsmState b} (pieces : Pieces s s') : Untouched s s' := by
  induction pieces with
  | refl => exact .refl s
  | tail _ piece ih =>
    cases piece with
    | error m => exact ih.trans ⟨rfl, rfl, rfl⟩
    | line k => exact ih.trans ⟨rfl, rfl, rfl⟩
    | value ok => exact ih.trans (writeValue_untouched ok)

/-- A place inside the second pass of a file. -/
structure InSecond (table : SymbolTable) (q : AsmState b) : Prop where
  pass : q.pass = .second
  symbols : q.symbols = table
  ccode : q.ccode &&& ~~~0x0e00#64 = 0

section
variable {table : SymbolTable} {q q' : AsmState b}

theorem InSecond.untouched (inside : InSecond table q) (same : Untouched q q') :
    InSecond table q' := by
  obtain ⟨pass, symbols, ccode⟩ := same
  exact ⟨pass.trans inside.pass, symbols.trans inside.symbols, ccode ▸ inside.ccode⟩

theorem InSecond.newLine (inside : InSecond table q) : InSecond table (newInstLine q) :=
  ⟨inside.pass, inside.symbols, by simp [newInstLine]⟩

theorem generateOrig_inSecond {o1 : List Byte} (inside : InSecond table q)
    (ok : generateOrig q o1 = .ok q') : InSecond table q' := by
  have header {s : AsmState b} (same : Untouched q s) : InSecond table (newInstLine s) :=
    (inside.untouched same).newLine
  unfold generateOrig at ok
  split at ok
  · split at ok
    · cases ok
      exact header ⟨rfl, rfl, rfl⟩
    · obtain ⟨t, wrote, rfl⟩ := map_ok ok
      obtain ⟨pass, symbols, ccode⟩ := writeValue_untouched wrote
      exact header ⟨pass, symbols, ccode⟩
  · split at ok
    · cases ok
      exact header ⟨rfl, rfl, rfl⟩
    · cases ok
      exact inside.newLine

theorem generateInstruction_inSecond {stale : Stale} {operands : Operands} {opstr : List Byte}
    (inside : InSecond table q) (ok : generateInstruction stale q operands opstr = .ok q') :
    InSecond table q' := by
  simp only [generateInstruction] at ok
  split at ok
  · cases ok
    exact (inside.untouched (.ofError (.inr ⟨_, rfl⟩))).newLine
  · split at ok
    · exact generateOrig_inSecond inside ok
    · split at ok
      · cases ok
        exact ⟨inside.pass, inside.symbols, by simp [newInstLine]⟩
      · obtain ⟨t, generated, rfl⟩ := map_ok ok
        refine (inside.untouched (.trans ?_ ((generateOp_pieces generated).untouched))).newLine
        cases operands with
        | RI => exact .ofError (orError_only ..)
        | RL => exact .ofError (findLabel_only ..)
        | _ => exact .refl q

theorem parseCcode_inside {ccode : BitVec 64} (inside : ccode &&& ~~~0x0e00#64 = 0)
    (ccstr : List Byte) : parseCcode ccode ccstr &&& ~~~0x0e00#64 = 0 := by
  have take (flag : Char) (bit : BitVec 64) (st : BitVec 64 × List Byte)
      (inside : st.1 &&& ~~~0x0e00#64 = 0) (one : bit &&& ~~~0x0e00#64 = 0) :
      (if st.2.head?.map tolower = some (byte flag) then (st.1 ||| bit, st.2.tail) else st).1 &&&
        ~~~0x0e00#64 = 0 := by
    split
    · rw [BitVec.and_or_distrib_right, inside, one]
      rfl
    · exact inside
  have flags := take 'p' 0x0200 _ (take 'z' 0x0400 _
    (take 'n' 0x0800 (ccode, ccstr) inside (by decide)) (by decide)) (by decide)
  obtain ⟨cc, parsed, inside⟩ : ∃ cc : BitVec 64,
      parseCcode ccode ccstr = (if cc = 0 then 0x0e00 else cc) ∧ cc &&& ~~~0x0e00#64 = 0 :=
    ⟨_, rfl, flags⟩
  rw [parsed]
  split
  · decide
  · exact inside

theorem act_inSecond {stale : Stale} {l : Lexeme Byte Action} (inside : InSecond table q)
    (ok : act stale q l = .ok q') : InSecond table q' := by
  cases token : l.token with
  | generate operands =>
    simp only [act, token] at ok
    exact generateInstruction_inSecond inside ok
  | condition =>
    simp only [act, token] at ok
    cases ok
    exact ⟨inside.pass, inside.symbols, parseCcode_inside inside.ccode _⟩
  | label =>
    simp only [act, token] at ok
    cases ok
    unfold foundLabel
    rw [if_neg (by rw [inside.pass]; decide)]
    exact inside
  | lineIgnored =>
    simp only [act, token] at ok
    cases ok
    unfold lineIgnored
    split <;> exact inside.untouched ⟨rfl, rfl, rfl⟩
  | unterminatedString | badOperands | strayOperands | badLine =>
    simp only [act, token] at ok
    cases ok
    exact (inside.untouched (.ofError (.inr ⟨_, rfl⟩))).newLine
  | handleDebug | blankLine =>
    simp only [act, token] at ok
    cases ok
    exact inside.newLine
  | _ =>
    simp only [act, token] at ok
    cases ok
    exact inside.untouched ⟨rfl, rfl, rfl⟩

theorem runPass_inSecond {stale : Stale} {ls : List (Lexeme Byte Action)}
    (inside : InSecond table q) (ok : runPass stale q ls = .ok q') : InSecond table q' := by
  induction ls generalizing q with
  | nil =>
    cases ok
    exact inside
  | cons l ls ih =>
    obtain ⟨t, acted, rest⟩ := runPass_cons.mp ok
    exact ih (act_inSecond inside acted) rest

theorem startPass_inSecond (s : AsmState b) : InSecond s.symbols (startPass .second s) :=
  ⟨rfl, rfl, by simp [startPass, newInstLine]⟩

end

section alike
variable {p p' q t u : AsmState b}

theorem OnlyError.place (only : OnlyError p q) : q.place = p.place := by
  rcases only with rfl | ⟨m, rfl⟩
  · rfl
  · rfl

theorem place_codeLoc (same : p.place = q.place) : p.codeLoc = q.codeLoc :=
  congrArg Place.codeLoc same

theorem place_sawOrig (same : p.place = q.place) : p.sawOrig = q.sawOrig :=
  congrArg Place.sawOrig same

theorem place_op (same : p.place = q.place) : p.op = q.op := congrArg Place.op same

theorem writeValue_room (more : (q.codeLoc + 1) % 0x10000 ≠ 0) (val : BitVec 64) :
    ∃ q', writeValue q val = .ok q' := by
  simp only [writeValue, if_neg more]
  split
  · exact ⟨_, rfl⟩
  · split <;> exact ⟨_, rfl⟩

/-- A step that comes back leaves the place that the step of another state leaves. -/
def Alike (next : Step b) (place : Place) : Prop := ∃ q', next = .ok q' ∧ q'.place = place

theorem writeValue_alike {val : BitVec 64} (same : p.place = q.place)
    (ok : writeValue p val = .ok p') (val' : BitVec 64) : Alike (writeValue q val') p'.place := by
  have written := writeValue_ok ok
  have here := place_codeLoc same
  obtain ⟨q', ok'⟩ := writeValue_room (here ▸ written.more) val'
  have written' := writeValue_ok ok'
  refine ⟨q', ok', ?_⟩
  simp only [AsmState.place, Place.mk.injEq]
  refine ⟨?_, ?_, ?_⟩
  · rw [written.sawOrig, written'.sawOrig, place_sawOrig same]
  · rw [written.codeLoc, written'.codeLoc, here]
  · rw [written.op, written'.op, place_op same]

theorem writeInstructionValue_alike {val : BitVec 64} (same : p.place = q.place)
    (ok : writeInstructionValue p val = .ok p') (val' : BitVec 64) :
    Alike (writeInstructionValue q val') p'.place := by
  unfold writeInstructionValue at ok ⊢
  split at ok
  · rename_i wide
    rw [if_pos wide]
    exact writeValue_alike same ok _
  · rename_i narrow
    rw [if_neg narrow]
    exact writeValue_alike same ok _

theorem bind_alike {r : Step b} {g : AsmState b → Step b} (first : Alike r t.place)
    (rest : ∀ u : AsmState b, t.place = u.place → Alike (g u) p'.place) :
    Alike (r.bind g) p'.place := by
  obtain ⟨u, rfl, same⟩ := first
  exact rest u same.symm

theorem map_alike {r : Step b} (next : Alike r t.place) :
    Alike (r.map newInstLine) (newInstLine t).place := by
  obtain ⟨u, rfl, same⟩ := next
  refine ⟨newInstLine u, rfl, ?_⟩
  simp only [AsmState.place, newInstLine, Place.mk.injEq, and_true]
  exact ⟨place_sawOrig same, place_codeLoc same⟩

theorem writeZeros_alike {n : Nat} (same : p.place = q.place) (ok : writeZeros p n = .ok p') :
    Alike (writeZeros q n) p'.place := by
  induction n generalizing p q with
  | zero =>
    cases ok
    exact ⟨q, rfl, same.symm⟩
  | succ n ih =>
    obtain ⟨t, first, rest⟩ := bind_ok ok
    exact bind_alike (writeValue_alike same first 0) fun u there => ih there rest

theorem character_alike {val : BitVec 64} {text : List Byte} (k k' : Nat) (same : p.place = q.place)
    (rest : ∀ {t t' u : AsmState b}, t.place = u.place → writeString t text = .ok t' →
      Alike (writeString u text) t'.place)
    (ok : ((writeValue { p with lineNum := k } val).bind fun t => writeString t text) = .ok p') :
    Alike ((writeValue { q with lineNum := k' } val).bind fun t => writeString t text)
      p'.place := by
  obtain ⟨t, first, later⟩ := bind_ok ok
  have next : Alike (writeValue { q with lineNum := k' } val) t.place :=
    writeValue_alike (p := { p with lineNum := k }) (q := { q with lineNum := k' }) same first val
  exact bind_alike next fun u there => rest there later

theorem writeString_alike {text : List Byte} (same : p.place = q.place)
    (ok : writeString p text = .ok p') : Alike (writeString q text) p'.place := by
  induction text using stringSize.induct generalizing p p' q with
  | case1 => cases ok
  | case2 cs =>
    rw [writeString.eq_def] at ok ⊢
    exact writeValue_alike same ok 0
  | case3 quote => cases ok
  | case4 quote e cs ih =>
    rw [writeString.eq_def] at ok ⊢
    exact character_alike p.lineNum q.lineNum same ih ok
  | case5 quote slash => cases ok
  | case6 rest quote slash ih =>
    rw [writeString.eq_def] at ok ⊢
    exact character_alike (p.lineNum + 1) (q.lineNum + 1) same ih ok
  | case7 d rest feed quote slash ih =>
    rw [writeString.eq_def] at ok ⊢
    simp only [if_neg quote, if_neg slash, if_true, if_neg feed] at ok ⊢
    exact character_alike (p.lineNum + 1) (q.lineNum + 1) same ih ok
  | case8 c cs quote slash ret ih =>
    rw [writeString.eq_def] at ok ⊢
    simp only [if_neg quote, if_neg slash, if_neg ret] at ok ⊢
    split at ok
    · rename_i feed
      rw [if_pos feed]
      exact character_alike (p.lineNum + 1) (q.lineNum + 1) same ih ok
    · rename_i plain
      rw [if_neg plain]
      exact character_alike p.lineNum q.lineNum same ih ok

theorem read_alike {val : BitVec 64} (same : p.place = q.place) (only : OnlyError p t)
    (only' : OnlyError q u) (ok : writeInstructionValue t val = .ok p') (val' : BitVec 64) :
    Alike (writeInstructionValue u val') p'.place :=
  writeInstructionValue_alike (only.place.trans (same.trans only'.place.symm)) ok val'

theorem readLoad_alike {o1 : List Byte} {val : BitVec 64}
    (errors : (readLoadInto p o1 val).2.numErrors = p.numErrors) (val' : BitVec 64) :
    (readLoadInto p o1 val).2 = p ∧ readLoadInto q o1 val' = ((readLoadInto p o1 val).1, q) := by
  unfold readLoadInto at errors ⊢
  cases read : readVal b o1 b.loadRegBitCount with
  | ok v => exact ⟨rfl, rfl⟩
  | error m =>
    rw [read] at errors
    exact absurd errors (Nat.succ_ne_self _)

theorem generateOp_alike {operands : Operands} {o1 o3 : List Byte} {r1 r2 r3 val : BitVec 64}
    (inside : InSpace p) (same : p.place = q.place)
    (ok : generateOp p operands o1 o3 r1 r2 r3 val = .ok p')
    (errors : p'.numErrors = p.numErrors) (val' : BitVec 64) :
    Alike (generateOp q operands o1 o3 r1 r2 r3 val') p'.place := by
  have op' := place_op same
  cases op : p.op with
  | JMP | JSRR | LD | LDI | LEA | NOT | ST | STI | GETC | HALT | IN | OUT | PUTS | PUTSP | RET
  | DIV | MOD | MUL | NOP =>
    rw [op] at op'
    simp only [generateOp, op, ← op'] at ok ⊢
    exact writeInstructionValue_alike same ok _
  | LDR | RTI | STR | TRAP =>
    rw [op] at op'
    simp only [generateOp, op, ← op'] at ok ⊢
    exact read_alike same (orError_only ..) (orError_only ..) ok _
  | ADD | AND | SLL | SRA =>
    rw [op] at op'
    simp only [generateOp, op, ← op'] at ok ⊢
    split at ok
    · rename_i number
      rw [if_pos number]
      exact read_alike same (orError_only ..) (orError_only ..) ok _
    · rename_i register
      rw [if_neg register]
      exact writeInstructionValue_alike same ok _
  | BR | JSR =>
    rw [op] at op'
    simp only [generateOp, op, ← op'] at ok ⊢
    split at ok
    · rename_i number
      simp only [if_pos number]
      exact read_alike same (orError_only ..) (orError_only ..) ok _
    · rename_i label
      simp only [if_neg label]
      exact read_alike same (findLabel_only ..) (findLabel_only ..) ok _
  | FILL =>
    rw [op] at op'
    simp only [generateOp, op, ← op'] at ok ⊢
    split at ok
    · rename_i number
      rw [if_pos number]
      exact writeValue_alike
        (((orError_only ..).place).trans (same.trans ((orError_only ..).place).symm)) ok _
    · rename_i label
      rw [if_neg label]
      exact writeValue_alike
        (((findLabel_only ..).place).trans (same.trans ((findLabel_only ..).place).symm)) ok _
  | STRINGZ =>
    rw [op] at op'
    simp only [generateOp, op, ← op'] at ok ⊢
    exact writeString_alike same ok
  | NONE | ORIG | END =>
    rw [op] at op'
    simp only [generateOp, op, ← op'] at ok ⊢
    cases ok
    exact ⟨q, rfl, same.symm⟩
  | BLKW =>
    rw [op] at op'
    simp only [generateOp, op, ← op'] at ok ⊢
    have only : OnlyError p (readLoadInto p o1 val).2 := orError_only ..
    have wrote := (writeZeros_wrote (only.inSpace inside) ok).errors
    obtain ⟨kept, read⟩ := readLoad_alike (q := q) (wrote.symm.trans errors) val'
    rw [kept] at ok
    rw [read]
    exact writeZeros_alike same ok
  | BLKWTO =>
    rw [op] at op'
    simp only [generateOp, op, ← op'] at ok ⊢
    have only : OnlyError p (readLoadInto p o1 val).2 := orError_only ..
    have counted := only.errors
    split at ok
    · cases ok
      simp only [countError] at errors
      omega
    · rename_i ahead
      have wrote := (writeZeros_wrote (only.inSpace inside) ok).errors
      obtain ⟨kept, read⟩ := readLoad_alike (q := q) (wrote.symm.trans errors) val'
      rw [kept] at ok ahead
      rw [place_codeLoc same] at ok ahead
      rw [read, if_neg ahead]
      exact writeZeros_alike same ok

theorem generateOrig_alike {o1 : List Byte} (same : p.place = q.place)
    (ok : generateOrig p o1 = .ok p') : Alike (generateOrig q o1) p'.place := by
  have started := place_sawOrig same
  unfold generateOrig at ok ⊢
  split at ok
  · rename_i start
    rw [if_pos (started ▸ start)]
    split at ok
    · cases ok
      exact ⟨_, rfl, rfl⟩
    · obtain ⟨t, wrote, rfl⟩ := map_ok ok
      rename_i v _
      have next : Alike (writeValue { q with codeLoc := (v.setWidth 32).toInt }
          (BitVec.ofInt 64 (v.setWidth 32).toInt)) t.place := by
        refine writeValue_alike (p := { p with codeLoc := (v.setWidth 32).toInt }) ?_ wrote _
        simp only [AsmState.place, started, place_op same]
      obtain ⟨u, wrote', there⟩ := next
      refine ⟨_, by simp only [wrote']; rfl, ?_⟩
      simp only [AsmState.place, newInstLine, place_codeLoc there]
  · rename_i again
    rw [if_neg (started ▸ again)]
    have here := place_codeLoc same
    split at ok
    · rename_i once
      rw [if_pos (started ▸ once)]
      cases ok
      exact ⟨_, rfl, by simp [AsmState.place, newInstLine, showError, here]⟩
    · rename_i more
      rw [if_neg (started ▸ more)]
      cases ok
      exact ⟨_, rfl, by simp [AsmState.place, newInstLine, here, started]⟩

theorem generateInstruction_alike {stale : Stale} {operands : Operands} {opstr : List Byte}
    (inside : InSpace p) (same : p.place = q.place)
    (ok : generateInstruction stale p operands opstr = .ok p')
    (errors : p'.numErrors = p.numErrors) :
    Alike (generateInstruction stale q operands opstr) p'.place := by
  have op := place_op same
  have started := place_sawOrig same
  simp only [generateInstruction, ← op, ← started] at ok ⊢
  split at ok
  · cases ok
    exact absurd errors (Nat.succ_ne_self _)
  · rename_i format
    rw [if_neg format]
    split at ok
    · rename_i orig
      rw [if_pos orig]
      exact generateOrig_alike same ok
    · rename_i other
      rw [if_neg other]
      split at ok
      · cases ok
        exact absurd errors (Nat.succ_ne_self _)
      · rename_i behind
        rw [if_neg behind]
        obtain ⟨t, generated, rfl⟩ := map_ok ok
        -- reading the second operand counts no error in the first pass
        have read {u v : AsmState b} (only : OnlyError p u) (only' : OnlyError q v)
            {val val' : BitVec 64}
            (generated : generateOp u operands (opstr.dropWhile isspace)
              (nextOperand (nextOperand (opstr.dropWhile isspace)))
              (regDigit (opstr.dropWhile isspace))
              (regDigit (nextOperand (opstr.dropWhile isspace)))
              (regDigit (nextOperand (nextOperand (opstr.dropWhile isspace)))) val = .ok t) :
            Alike ((generateOp v operands (opstr.dropWhile isspace)
              (nextOperand (nextOperand (opstr.dropWhile isspace)))
              (regDigit (opstr.dropWhile isspace))
              (regDigit (nextOperand (opstr.dropWhile isspace)))
              (regDigit (nextOperand (nextOperand (opstr.dropWhile isspace)))) val').map
                newInstLine)
              (newInstLine t).place := by
          have follows := (generateOp_follows (only.inSpace inside) generated).errors
          have kept := only.errors
          have total : t.numErrors = p.numErrors := errors
          have there := only.place.trans (same.trans only'.place.symm)
          exact map_alike (generateOp_alike (only.inSpace inside) there generated (by omega) val')
        cases operands with
        | RI => exact read (orError_only ..) (orError_only ..) generated
        | RL => exact read (findLabel_only ..) (findLabel_only ..) generated
        | _ => exact read (.inl rfl) (.inl rfl) generated

theorem foundLabel_place (s : AsmState b) (lname : List Byte) :
    (foundLabel s lname).place = s.place := by
  unfold foundLabel
  simp only
  split
  · split
    · rfl
    · split <;> rfl
  · rfl

theorem act_alike {stale : Stale} {l : Lexeme Byte Action} (inside : InSpace p)
    (same : p.place = q.place) (ok : act stale p l = .ok p')
    (errors : p'.numErrors = p.numErrors) : Alike (act stale q l) p'.place := by
  have started := place_sawOrig same
  have here := place_codeLoc same
  have op := place_op same
  cases token : l.token with
  | generate operands =>
    simp only [act, token] at ok ⊢
    exact generateInstruction_alike inside same ok errors
  | unterminatedString | badOperands | strayOperands | badLine =>
    simp only [act, token] at ok
    cases ok
    exact absurd errors (Nat.succ_ne_self _)
  | label =>
    simp only [act, token] at ok ⊢
    cases ok
    exact ⟨_, rfl, by rw [foundLabel_place, foundLabel_place, same]⟩
  | lineIgnored =>
    simp only [act, token] at ok ⊢
    cases ok
    refine ⟨_, rfl, ?_⟩
    unfold lineIgnored
    split <;> split <;> exact same.symm
  | _ =>
    simp only [act, token] at ok ⊢
    cases ok
    exact ⟨_, rfl, by simp [AsmState.place, newInstLine, started, here, op]⟩

theorem runPass_alike {stale : Stale} {ls : List (Lexeme Byte Action)} (inside : InSpace p)
    (same : p.place = q.place) (ok : runPass stale p ls = .ok p')
    (errors : p'.numErrors = p.numErrors) : Alike (runPass stale q ls) p'.place := by
  induction ls generalizing p q with
  | nil =>
    cases ok
    exact ⟨q, rfl, same.symm⟩
  | cons l ls ih =>
    obtain ⟨t, acted, rest⟩ := runPass_cons.mp ok
    have moves := lexeme_moves inside acted
    have first := moves.errors
    have later := runPass_errors moves.inSpace rest
    obtain ⟨u, acted', there⟩ := act_alike inside same acted (by omega)
    obtain ⟨q', rest', last⟩ := ih moves.inSpace there.symm rest (by omega)
    exact ⟨q', runPass_cons.mpr ⟨u, acted', rest'⟩, last⟩

end alike

/-- The second pass at a lexeme, behind a first pass that counts no error. -/
structure Visits (stale : Stale) (s₁ : AsmState b) (before : List (Lexeme Byte Action))
    (l : Lexeme Byte Action) (p p' q q' : AsmState b) : Prop where
  reached : runPass stale (startPass .first initialState) before = .ok p
  acted : act stale p l = .ok p'
  errors : p'.numErrors = p.numErrors
  reached' : runPass stale (startPass .second s₁) before = .ok q
  acted' : act stale q l = .ok q'
  place : p.place = q.place
  inside : InSpace q
  second : InSecond s₁.symbols q

theorem second_visits {stale : Stale} {text : List Byte} {s₁ : AsmState b}
    (first : firstPass stale text = .ok s₁) (clean : s₁.numErrors = 0)
    {before after : List (Lexeme Byte Action)} {l : Lexeme Byte Action}
    (lexemes : yylex text = before ++ l :: after) :
      ∃ p p' q q', Visits stale s₁ before l p p' q q' := by
  obtain ⟨t, ran, rfl⟩ := map_ok first
  have only := checkDirectives_only t
  rw [lexemes, runPass_append] at ran
  obtain ⟨p, reached, rest⟩ := ran
  obtain ⟨p', acted, rest⟩ := runPass_cons.mp rest
  have start := startPass_inSpace .first (initialState (b := b))
  have inside := runPass_inSpace start reached
  have moved := lexeme_moves inside acted
  have first₁ := runPass_errors start reached
  have first₂ := moved.errors
  have first₃ := runPass_errors moved.inSpace rest
  have first₄ := only.errors
  have zero : (startPass .first (initialState (b := b))).numErrors = 0 := rfl
  obtain ⟨q, reached', there⟩ :=
    runPass_alike (q := startPass .second (checkDirectives t)) start rfl
    reached (by omega)
  obtain ⟨q', acted', -⟩ := act_alike inside there.symm acted (by omega)
  exact ⟨p, p', q, q', reached, acted, by omega, reached', acted', there.symm,
    runPass_inSpace (startPass_inSpace ..) reached',
      runPass_inSecond (startPass_inSecond _) reached'⟩

theorem lexeme_at {text : List Byte} {n : Nat} {l : Lexeme Byte Action}
    (found : (yylex text)[n]? = some l) :
    yylex text = (yylex text).take n ++ l :: (yylex text).drop (n + 1) := by
  obtain ⟨inside, rfl⟩ := List.getElem?_eq_some_iff.mp found
  rw [List.getElem_cons_drop]
  exact (List.take_append_drop n _).symm

end LC3Tools.Assembler
