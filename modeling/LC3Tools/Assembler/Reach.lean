import LC3Tools.Assembler.Encode
import LC3Tools.Assembler.Image

/-! Labels as distances from the PC. The distance is counted from the location behind the
instruction, checked against the range of its field and added back by the simulator. -/
namespace LC3Tools.Assembler
open Flex BitFields Maker

/-- The address `ExecuteOneInstruction` computes from the PC behind the instruction. -/
def effectiveAddress (pc : BitVec 16) : Instr → Option (BitVec 16)
  | .BR _ v | .LD _ v | .ST _ v | .LDI _ v | .STI _ v | .LEA _ v
    | .JSR_I v => some (pc + v.setWidth 16)
  | _ => none

/-- The operations whose label is a distance. -/
def relativeOpcode : Op → Option Opcode
  | .BR => some .BR | .LD => some .LD | .LDI => some .LDI | .ST => some .ST | .STI => some .STI
  | .LEA => some .LEA | .JSR => some .JSR
  | _ => none

section
variable {q : AsmState .bit16} {text : List Byte} {label : Symbol} {bits : Nat}

/-- The distance the assembler counts. -/
def distance (q : AsmState .bit16) (label : Symbol) : Int := label.addr - (q.codeLoc + 1)

theorem findLabel_near (second : q.pass = .second) (narrow : bits ≠ 16)
    (found : findSymbol q.symbols (symName text) = some label)
    (near : InRange bits (distance q label)) :
    findLabel q text bits = (BitVec.ofInt 64 (distance q label), q) := by
  have other : ¬ q.pass = .first := by
    rw [second]
    decide
  have inside : ¬ (distance q label < -2 ^ (bits - 1) ∨ distance q label ≥ 2 ^ (bits - 1)) := by
    obtain ⟨low, high⟩ := near
    omega
  have wide : bits ≠ Build.loadRegBitCount .bit16 := narrow
  simp only [findLabel, if_neg other, found, if_pos wide]
  change orError q 0 (if distance q label < -2 ^ (bits - 1) ∨ distance q label ≥ 2 ^ (bits - 1)
    then _ else .ok (BitVec.ofInt 64 (distance q label))) = _
  rw [if_neg inside]
  rfl

theorem findLabel_far (second : q.pass = .second) (narrow : bits ≠ 16)
    (found : findSymbol q.symbols (symName text) = some label)
    (far : ¬ InRange bits (distance q label)) :
    (findLabel q text bits).2.numErrors = q.numErrors + 1 := by
  have other : ¬ q.pass = .first := by
    rw [second]
    decide
  have outside : distance q label < -2 ^ (bits - 1) ∨ distance q label ≥ 2 ^ (bits - 1) := by
    unfold InRange at far
    omega
  have wide : bits ≠ Build.loadRegBitCount .bit16 := narrow
  simp only [findLabel, if_neg other, found, if_pos wide]
  change (orError q 0 (if distance q label < -2 ^ (bits - 1) ∨ distance q label ≥ 2 ^ (bits - 1)
    then _ else .ok (BitVec.ofInt 64 (distance q label)))).2.numErrors = _
  rw [if_pos outside]
  rfl

end

theorem relative_encoded {op : Op} {form : Operands} (relative : labelForm op = some form)
    {ccode r1 r2 v : BitVec 64} {x : Instr} (made : encoded op ccode r1 r2 v = some x)
    (pc : BitVec 16) :
    relativeOpcode op = some x.opcode ∧ effectiveAddress pc x = some (pc + v.setWidth 16) ∧
      isUnsigned op = false ∧ (form = .L ∨ form = .RL) := by
  cases op <;> cases relative <;> cases made <;> simp [relativeOpcode, Instr.opcode,
    effectiveAddress, isUnsigned]

theorem address_behind (a s : Int) :
    BitVec.ofInt 16 a + (BitVec.ofInt 64 (s - a)).setWidth 16 = BitVec.ofInt 16 s := by
  rw [setWidth_ofInt (by decide), ← BitVec.ofInt_add]
  congr 1
  omega

/-- In the second pass of the 16-bit assembler, whatever errors it has counted before: a
label operand of BR, LD, LDI, ST, STI, LEA or JSR is accepted if and only if the symbol lies
in the range of the field from behind the instruction, and then the simulator computes the
address of the symbol from the word that is written. -/
theorem label_reached_iff (stale : Stale) (text : List Byte) (s₁ : AsmState .bit16)
    (first : firstPass stale text = .ok s₁) (clean : s₁.numErrors = 0) :
    ∀ before l after form, yylex text = before ++ l :: after → l.token = .generate form →
      ∃ q q' : AsmState .bit16, runPass stale (startPass .second s₁) before = .ok q ∧
        act stale q l = .ok q' ∧
        (labelForm q.op = some form →
          ∀ label, findSymbol s₁.symbols (symName (operandText form (buffer l))) = some label →
            (q'.numErrors = q.numErrors ↔
              InRange (operandBits q.op) (label.addr - (q.codeLoc + 1))) ∧
            (q'.numErrors = q.numErrors → ∃ word, q'.objout = q.objout ++ [word] ∧
              relativeOpcode q.op = some (loadedInstr .bit16 word).opcode ∧
              effectiveAddress (BitVec.ofInt 16 (q.codeLoc + 1)) (loadedInstr .bit16 word) =
                some (BitVec.ofInt 16 label.addr))) := by
  intro before l after form lexemes token
  obtain ⟨p, p', q, q', visits⟩ := second_visits first clean lexemes
  refine ⟨q, q', visits.reached', visits.acted', ?_⟩
  intro relative label found
  have inside : l ∈ yylex text := by simp [lexemes]
  obtain ⟨errors, word, objout, made⟩ := field_emitted inside visits token (.inr relative)
  obtain ⟨opcode, address, sign, shape⟩ :=
    relative_encoded relative made (BitVec.ofInt 16 (q.codeLoc + 1))
  obtain ⟨positive, narrow⟩ := operandBits_bounds q.op
  have second := visits.second
  rw [← second.symbols] at found
  have read : readOperand stale q form (buffer l) =
      findLabel q (operandText form (buffer l)) (operandBits q.op) := by
    rcases shape with rfl | rfl <;> rfl
  rw [read] at errors address
  rw [fieldValue_signed sign] at address
  by_cases near : InRange (operandBits q.op) (distance q label)
  · rw [findLabel_near second.pass (by omega) found near] at errors address
    have value : (BitVec.ofInt 64 (distance q label)).toInt = distance q label := by
      obtain ⟨low, high⟩ := near.mono (m := 12) (by omega)
      rw [BitVec.toInt_ofInt, Int.bmod_eq_of_le] <;> omega
    have whole := signed_of_inRange positive (by omega) (v := BitVec.ofInt 64 (distance q label))
      (value.symm ▸ near)
    rw [whole, distance, address_behind] at address
    exact ⟨⟨fun _ => near, fun _ => errors⟩, fun _ => ⟨word, objout, opcode, address⟩⟩
  · have counted := findLabel_far second.pass (by omega) found near
    rw [← errors] at counted
    refine ⟨⟨fun same => ?_, fun inside => absurd inside near⟩, fun same => ?_⟩ <;> omega

def reachSource : List Byte := bytes ".ORIG x3000\nLEA R0,A\nHALT\nA .FILL x5\n.END\n"

/-- The symbols of the first pass, and where the second pass is behind the first lexemes. -/
def reachFacts : Option (Nat × Op × Int × Option Int) :=
  (firstPass (b := .bit16) (fun _ _ => 0) reachSource).toOption.bind fun s₁ =>
    (runPass (fun _ _ => 0) (startPass .second s₁) ((yylex reachSource).take 3)).toOption.map
      fun q =>
      (s₁.numErrors, q.op, q.codeLoc, (findSymbol s₁.symbols (bytes "A")).map Symbol.addr)

theorem label_reached_lea :
    ∃ (s₁ q q' : AsmState .bit16) (l : Lexeme Byte Action)
      (word : BitVec (Build.registerBits .bit16)),
      firstPass (fun _ _ => 0) reachSource = .ok s₁ ∧ (yylex reachSource)[3]? = some l ∧
      runPass (fun _ _ => 0) (startPass .second s₁) ((yylex reachSource).take 3) = .ok q ∧
      act (fun _ _ => 0) q l = .ok q' ∧ q'.objout = q.objout ++ [word] ∧
      effectiveAddress 0x3001 (loadedInstr .bit16 word) = some 0x3002 := by
  have facts : reachFacts = some (0, .LEA, 0x3000, some 0x3002) := by decide +kernel
  have found : (yylex reachSource)[3]? =
      some ⟨.generate .RL, bytes " R0,A\n", bytes "HALT\nA .FILL x5\n.END\n"⟩ := by decide +kernel
  have name : symName (operandText .RL
      (buffer ⟨.generate .RL, bytes " R0,A\n", bytes "HALT\nA .FILL x5\n.END\n"⟩)) = bytes "A" := by
    decide +kernel
  cases first : firstPass (b := .bit16) (fun _ _ => 0) reachSource with
  | error halt =>
    simp only [reachFacts, first, Except.toOption, Option.bind_none] at facts
    cases facts
  | ok s₁ =>
    cases reached : runPass (fun _ _ => 0) (startPass .second s₁) ((yylex reachSource).take 3) with
    | error halt =>
      simp only [reachFacts, first, reached, Except.toOption, Option.bind_some,
        Option.map_none] at facts
      cases facts
    | ok q =>
      simp only [reachFacts, first, reached, Except.toOption, Option.bind_some, Option.map_some,
        Option.some.injEq, Prod.mk.injEq] at facts
      obtain ⟨clean, op, location, address⟩ := facts
      obtain ⟨label, entered, addr⟩ := Option.map_eq_some_iff.mp address
      obtain ⟨r, q', reached', acted, label'⟩ :=
        label_reached_iff _ reachSource s₁ first clean _ _ _ _
        (lexeme_at found) rfl
      cases reached.symm.trans reached'
      obtain ⟨accepted, reaches⟩ := label' (by rw [op]; rfl) label (by rw [name]; exact entered)
      rw [op, location, addr] at accepted
      obtain ⟨word, objout, -, target⟩ := reaches (accepted.mpr (by decide))
      rw [location, addr] at target
      exact ⟨s₁, q, q', _, word, rfl, found, reached, acted, objout, target⟩

end LC3Tools.Assembler
