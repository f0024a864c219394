import LC3Tools.Assembler.TwoPasses
import LC3Tools.Sim.Loader

/-! The image an assembled file describes and the image the simulator loads from its
object file. The listing pairs every value behind the header with its location; the
object file holds the same values, each through the swap of the writer, which works on
a signed `long`; the loader swaps back at the width of a register. -/
namespace LC3Tools.Assembler
open Flex LittleEndian Sim

variable {b : Build}

instance (p : Place) (l : Lexeme Byte Action) : Decidable (IsHeader p l) :=
  inferInstanceAs (Decidable (_ ∧ _ ∧ _))

/-- The number of the header statement that a pass comes to from a place on. -/
def headerValue (b : Build) : Place → List (Lexeme Byte Action) → Option (BitVec 64)
  | _, [] => none
  | p, l :: ls =>
    if IsHeader p l then loadValue b (firstOperand l)
    else (placeLexeme b p l).bind fun next => headerValue b next.1 ls

theorem header_emitted {stale : Stale} {s s' : AsmState b} {l : Lexeme Byte Action} {v : BitVec 64}
    (header : IsHeader s.place l) (value : loadValue b (firstOperand l) = some v)
    (second : s.pass = .second) (ok : act stale s l = .ok s') :
    s'.objout = s.objout ++ [b.swap (BitVec.ofInt 64 (originOf v))] ∧ s'.lstout = s.lstout := by
  obtain ⟨token, op, start⟩ := header
  have op' : s.op = .ORIG := op
  have start' : s.sawOrig = 0 := start
  have read : readVal b (firstOperand l) b.loadRegBitCount = .ok v := by
    unfold loadValue at value
    cases read : readVal b (firstOperand l) b.loadRegBitCount with
    | ok u =>
      simp only [read, Except.toOption, Option.some.injEq] at value
      rw [value]
    | error m =>
      simp only [read, Except.toOption] at value
      cases value
  have format : (opFormatOk s.op).testBit Operands.I.code := by
    rw [op']
    decide
  simp only [act, token, generateInstruction] at ok
  rw [if_neg (not_not_intro format), if_pos op', generateOrig, if_pos start'] at ok
  unfold firstOperand at read
  rw [read] at ok
  obtain ⟨t, wrote, rfl⟩ := map_ok ok
  have written := writeValue_ok wrote
  refine ⟨?_, ?_⟩
  · have objout := written.objout
    rw [if_pos second] at objout
    exact objout
  · have lstout := written.lstout
    rw [if_neg (fun h => h.2 start'), List.append_nil] at lstout
    exact lstout

/-- What the second pass writes behind the header, at the locations from its own on. -/
structure Filled (s s' : AsmState b) (vs : List (BitVec 64)) : Prop where
  started : s'.sawOrig ≠ 0
  objout : s'.objout = s.objout ++ vs.map b.swap
  lstout : s'.lstout = s.lstout ++ addressed s.codeLoc vs
  codeLoc : s'.codeLoc = s.codeLoc + vs.length

theorem Filled.trans {s s' s'' : AsmState b} {vs us : List (BitVec 64)} (first : Filled s s' vs)
    (second : Filled s' s'' us) : Filled s s'' (vs ++ us) := by
  constructor
  · exact second.started
  · rw [second.objout, first.objout, List.map_append, List.append_assoc]
  · rw [second.lstout, first.lstout, first.codeLoc, addressed_append, List.append_assoc]
  · rw [second.codeLoc, first.codeLoc, List.length_append]
    omega

theorem lexeme_filled {stale : Stale} {s s' : AsmState b} {l : Lexeme Byte Action}
    (inside : InSpace s) (second : s.pass = .second) (started : s.sawOrig ≠ 0)
    (ok : act stale s l = .ok s') (errors : s'.numErrors = s.numErrors) :
    ∃ vs, Filled s s' vs := by
  obtain ⟨n, next, -, vs, size, emitted⟩ := (lexeme_moves inside ok).follows errors
  rcases placeLexeme_moves next with ⟨v, move⟩ | move
  · exact absurd move.header.2.2 started
  · have objout := emitted.objout
    have lstout := emitted.lstout
    rw [if_pos second] at objout
    rw [if_pos ⟨second, started⟩] at lstout
    have apart : s'.codeLoc = s.codeLoc + n := move.apart
    exact ⟨vs, move.behind started, objout, lstout, size ▸ apart⟩

theorem runPass_filled {stale : Stale} {s s' : AsmState b} {ls : List (Lexeme Byte Action)}
    (inside : InSpace s) (second : s.pass = .second) (started : s.sawOrig ≠ 0)
    (ok : runPass stale s ls = .ok s') (errors : s'.numErrors = s.numErrors) :
    ∃ vs, Filled s s' vs := by
  induction ls generalizing s with
  | nil =>
    cases ok
    exact ⟨[], started, by simp, by simp [addressed], by simp⟩
  | cons l ls ih =>
    obtain ⟨t, acted, rest⟩ := runPass_cons.mp ok
    have moves := lexeme_moves inside acted
    have later := runPass_errors moves.inSpace rest
    have earlier := moves.errors
    obtain ⟨-, -, pass, -⟩ := moves.follows (by omega)
    obtain ⟨vs, filled⟩ := lexeme_filled inside second started acted (by omega)
    obtain ⟨us, filled'⟩ := ih moves.inSpace (pass.trans second) filled.started rest (by omega)
    exact ⟨vs ++ us, filled.trans filled'⟩

/-- A second pass from its start on: it comes to the header first. -/
structure Started (stale : Stale) (s s' : AsmState b) (ls : List (Lexeme Byte Action))
    (v : BitVec 64) (vs : List (BitVec 64)) : Prop where
  header : headerValue b s.place ls = some v
  more : (originOf v + 1) % 0x10000 ≠ 0
  objout : s'.objout = s.objout ++ b.swap (BitVec.ofInt 64 (originOf v)) :: vs.map b.swap
  lstout : s'.lstout = s.lstout ++ addressed ((originOf v + 1) % 0x10000 - 1) vs
  codeLoc : s'.codeLoc = (originOf v + 1) % 0x10000 - 1 + vs.length

theorem runPass_started {stale : Stale} {s s' : AsmState b} {ls : List (Lexeme Byte Action)}
    (inside : InSpace s) (second : s.pass = .second) (start : s.sawOrig = 0)
    (ok : runPass stale s ls = .ok s') (errors : s'.numErrors = s.numErrors)
    (started : s'.sawOrig ≠ 0) : ∃ v vs, Started stale s s' ls v vs := by
  induction ls generalizing s with
  | nil =>
    cases ok
    exact absurd start started
  | cons l ls ih =>
    obtain ⟨t, acted, rest⟩ := runPass_cons.mp ok
    have moves := lexeme_moves inside acted
    have later := runPass_errors moves.inSpace rest
    have earlier := moves.errors
    obtain ⟨n, next, pass, us, size, emitted⟩ := moves.follows (by omega)
    rcases placeLexeme_moves next with ⟨v, move⟩ | move
    · obtain ⟨objout, lstout⟩ := header_emitted move.header move.value second acted
      have origin : t.codeLoc = (originOf v + 1) % 0x10000 - 1 :=
        congrArg Place.codeLoc move.next
      have behind : t.sawOrig = 1 := congrArg Place.sawOrig move.next
      obtain ⟨vs, filled⟩ := runPass_filled moves.inSpace (pass.trans second) (by omega) rest
        (by omega)
      refine ⟨v, vs, ?_, move.more, ?_, ?_, ?_⟩
      · rw [headerValue, if_pos move.header]
        exact move.value
      · rw [filled.objout, objout, List.append_assoc]
        rfl
      · rw [filled.lstout, lstout, origin]
      · rw [filled.codeLoc, origin]
    · -- nothing is written before the header
      obtain ⟨still, none⟩ := move.before start
      have empty : us = [] := List.eq_nil_of_length_eq_zero (size.trans none)
      subst empty
      obtain ⟨v, vs, found⟩ := ih moves.inSpace (pass.trans second) still rest (by omega)
      have objout := emitted.objout
      have lstout := emitted.lstout
      rw [if_pos second, List.map_nil, List.append_nil] at objout
      rw [if_neg (fun h => h.2 start), List.append_nil] at lstout
      refine ⟨v, vs, ?_, found.more, ?_, ?_, found.codeLoc⟩
      · rw [headerValue, if_neg move.plain, next]
        exact found.header
      · rw [found.objout, objout]
      · rw [found.lstout, lstout]

/-- The bytes of the object file, on a host that stores the low byte first. -/
def objectBytes (s : AsmState b) : List (BitVec 8) := ofWords (loadRegSize b) s.objout

/-- The simulator with an arbitrary state and the object file of the second pass: what
is listed is in memory, and the program counter is at the first location listed. -/
def LoadsAs (s : AsmState b) (M : Nat)
    (before : State (SimpleHost M b.registerBits) b.registerBits) :
    Prop :=
  ∃ after, loadData b (objectBytes s) before = some (.success, after) ∧
    (∀ line ∈ s.lstout.head?, after.regs.pc = BitVec.ofInt _ line.1) ∧
    ∀ line ∈ s.lstout, after.host.memory (BitVec.ofInt _ line.1) = line.2.setWidth _

/-- What the words behind the swaps must be like. -/
def SurvivesSwap (b : Build) (origin : Int) (values : List (BitVec 64)) : Prop :=
  match b with
  | .bit16 => SurvivesSwap16 (BitVec.ofInt 64 origin) ∧ ∀ v ∈ values, SurvivesSwap16 v
  | _ => 0 ≤ origin ∧ origin < 0x10000

theorem addressed_getElem (loc : Int) (vs : List (BitVec 64)) :
    ∀ line ∈ addressed loc vs, ∃ j, ∃ inside : j < vs.length, line = (loc + (j : Int), vs[j]) := by
  induction vs generalizing loc with
  | nil =>
    intro line listed
    cases listed
  | cons v vs ih =>
    intro line listed
    rcases List.mem_cons.mp listed with rfl | listed
    · exact ⟨0, Nat.zero_lt_succ _, by simp⟩
    · obtain ⟨j, inside, rfl⟩ := ih (loc + 1) line listed
      refine ⟨j + 1, Nat.succ_lt_succ inside, Prod.ext ?_ ?_⟩
      · simp only
        omega
      · simp

theorem mem_addressed (loc : Int) (vs : List (BitVec 64)) {j : Nat} (inside : j < vs.length) :
    (loc + (j : Int), vs[j]) ∈ addressed loc vs := by
  induction vs generalizing loc j with
  | nil => cases inside
  | cons v vs ih =>
    cases j with
    | zero => simp [addressed]
    | succ j =>
      have short : j < vs.length := Nat.lt_of_succ_lt_succ inside
      have apart : loc + ((j + 1 : Nat) : Int) = loc + 1 + (j : Int) := by omega
      rw [apart, addressed]
      exact List.mem_cons_of_mem _ (ih (loc + 1) short)

theorem values_addressed (loc : Int) (vs : List (BitVec 64)) :
    (addressed loc vs).map (·.2) = vs := by
  induction vs generalizing loc with
  | nil => rfl
  | cons v vs ih => rw [addressed, List.map_cons, ih]

theorem cell_ofInt (loc : Int) (j : Nat) :
    cell (b := b) (BitVec.ofInt _ loc) j = BitVec.ofInt _ (loc + (j : Int)) := by
  rw [cell, BitVec.ofInt_add, BitVec.ofInt_natCast]

theorem originOf_bounds (v : BitVec 64) : -2 ^ 31 ≤ originOf v ∧ originOf v < 2 ^ 31 := by
  have low := BitVec.le_toInt (v.setWidth 32)
  have high := BitVec.toInt_lt (x := v.setWidth 32)
  unfold originOf
  omega

theorem setWidth_ofInt {w n : Nat} (narrow : n ≤ w) (i : Int) :
    (BitVec.ofInt w i).setWidth n = BitVec.ofInt n i := by
  apply BitVec.eq_of_toNat_eq
  have divides : ((2 ^ n : Nat) : Int) ∣ (2 ^ w : Nat) :=
    Int.natCast_dvd_natCast.mpr (Nat.pow_dvd_pow 2 narrow)
  have positive : (0 : Int) < (2 ^ w : Nat) := by positivity
  have positive' : (0 : Int) < (2 ^ n : Nat) := by positivity
  have low : 0 ≤ i % (2 ^ w : Nat) := Int.emod_nonneg _ positive.ne'
  have low' : 0 ≤ i % (2 ^ n : Nat) := Int.emod_nonneg _ positive'.ne'
  rw [BitVec.toNat_setWidth, BitVec.toNat_ofInt, BitVec.toNat_ofInt]
  apply Int.ofNat_inj.mp
  rw [Int.natCast_emod, Int.toNat_of_nonneg low, Int.toNat_of_nonneg low',
    Int.emod_emod_of_dvd i divides]

theorem ofInt_eq_iff {w : Nat} (wide : 32 ≤ w) {m n : Int} (far : -2 ^ 31 ≤ m ∧ m < 2 ^ 31)
    (near : 0 ≤ n ∧ n < 0x10000) : BitVec.ofInt w m = BitVec.ofInt w n ↔ m = n := by
  constructor
  · intro same
    have narrowed := congrArg (BitVec.setWidth 32) same
    rw [setWidth_ofInt wide, setWidth_ofInt wide] at narrowed
    have remainders := congrArg BitVec.toNat narrowed
    rw [BitVec.toNat_ofInt, BitVec.toNat_ofInt] at remainders
    omega
  · rintro rfl
    rfl

theorem survives_iff {v : BitVec 64} {loc : Int} (more : (originOf v + 1) % 0x10000 ≠ 0)
    (here : loc = (originOf v + 1) % 0x10000 - 1) {vs : List (BitVec 64)} :
    SurvivesSwap b (originOf v) vs ↔
      loadSwap b (b.swap (BitVec.ofInt 64 (originOf v))) = BitVec.ofInt _ loc ∧
        ∀ u ∈ vs, loadSwap b (b.swap u) = u.setWidth _ := by
  have bounds := originOf_bounds v
  have near : 0 ≤ loc ∧ loc < 0x10000 := by omega
  have inside : 0 ≤ originOf v ∧ originOf v < 0x10000 ↔ originOf v = loc := by omega
  cases b with
  | bit16 =>
    have origin : (BitVec.ofInt 64 (originOf v)).setWidth 16 = BitVec.ofInt 16 loc := by
      rw [setWidth_ofInt (by decide)]
      apply BitVec.eq_of_toNat_eq
      rw [BitVec.toNat_ofInt, BitVec.toNat_ofInt]
      omega
    have kept (u : BitVec 64) :
        wordSwap16 (Build.swap16 u) = u.setWidth 16 ↔ SurvivesSwap16 u := by
      rw [wordSwap16_swap16, SurvivesSwap16]
    have header := kept (BitVec.ofInt 64 (originOf v))
    rw [origin] at header
    exact and_congr header.symm (forall₂_congr fun u _ => (kept u).symm)
  | bit32 | bit32Wide =>
    have header : wordSwap32 (Build.swap32 (BitVec.ofInt 64 (originOf v))) = BitVec.ofInt 32 loc ↔
        originOf v = loc := by
      rw [wordSwap32_swap32, setWidth_ofInt (by decide), ofInt_eq_iff (by decide) bounds near]
    have kept : ∀ u ∈ vs, wordSwap32 (Build.swap32 u) = u.setWidth 32 :=
      fun u _ => wordSwap32_swap32 u
    exact (inside.trans header.symm).trans (and_iff_left kept).symm
  | bit64Wide =>
    have header : BitVec.ofInt 64 (originOf v) = BitVec.ofInt 64 loc ↔ originOf v = loc :=
      ofInt_eq_iff (by decide) bounds near
    have kept : ∀ u ∈ vs, u = u.setWidth 64 := fun u _ => (BitVec.setWidth_eq u).symm
    exact (inside.trans header.symm).trans (and_iff_left kept).symm

theorem cell_toNat {loc : Int} {j : Nat} (low : 0 ≤ loc) (high : loc + (j : Int) < 0x10000) :
    (cell (b := b) (BitVec.ofInt _ loc) j).toNat = (loc + (j : Int)).toNat := by
  have wide : 0x10000 ≤ 2 ^ b.registerBits := by
    cases b <;> decide
  have inside : loc + (j : Int) < (2 ^ b.registerBits : Nat) := by omega
  rw [cell_ofInt, BitVec.toNat_ofInt, Int.emod_eq_of_lt (by omega) inside]

section
variable {s : AsmState b} {M : Nat} {v : BitVec 64} {vs : List (BitVec 64)} {loc : Int}
  (st : State (SimpleHost M b.registerBits) b.registerBits)

theorem loadsAs_of_survives (large : 0xffff ≤ M) (low : 0 ≤ loc) (room : loc + vs.length < 0x10000)
    (objout : s.objout = b.swap (BitVec.ofInt 64 (originOf v)) :: vs.map b.swap)
    (lstout : s.lstout = addressed loc vs)
    (header : loadSwap b (b.swap (BitVec.ofInt 64 (originOf v))) = BitVec.ofInt _ loc)
    (kept : ∀ u ∈ vs, loadSwap b (b.swap u) = u.setWidth _) : LoadsAs s M st := by
  have inside : ∀ i, i < (vs.map b.swap).length →
      (cell (loadSwap b (b.swap (BitVec.ofInt 64 (originOf v)))) i).toNat < M := by
    intro i short
    rw [List.length_map] at short
    rw [header, cell_toNat low (by omega)]
    omega
  have short : (vs.map b.swap).length < 0x10000 := by
    rw [List.length_map]
    omega
  obtain ⟨h, loaded, stored, -⟩ := loadData_stored st short inside
  refine ⟨_, by rw [objectBytes, objout]; exact loaded, ?_, ?_⟩
  · intro line first
    rw [lstout] at first
    cases vs with
    | nil => cases first
    | cons u us =>
      cases first
      exact header
  · intro line listed
    rw [lstout] at listed
    obtain ⟨j, within, rfl⟩ := addressed_getElem loc vs line listed
    have word := stored j (by rwa [List.length_map]) (Nat.zero_le j)
    rw [header, cell_ofInt, List.getElem_map] at word
    exact word.trans (kept _ (List.getElem_mem within))

theorem survives_of_loadsAs (large : 0xffff ≤ M) (low : 0 ≤ loc)
    (room : loc + vs.length < 0x10000) (some : vs ≠ [])
    (objout : s.objout = b.swap (BitVec.ofInt 64 (originOf v)) :: vs.map b.swap)
    (lstout : s.lstout = addressed loc vs) (loads : LoadsAs s M st) :
    loadSwap b (b.swap (BitVec.ofInt 64 (originOf v))) = BitVec.ofInt _ loc ∧
      ∀ u ∈ vs, loadSwap b (b.swap u) = u.setWidth _ := by
  obtain ⟨after, loaded, pc, memory⟩ := loads
  rw [objectBytes, objout] at loaded
  have header : loadSwap b (b.swap (BitVec.ofInt 64 (originOf v))) = BitVec.ofInt _ loc := by
    have first := wordAt_ofWords (registerBits_whole b)
      (b.swap (BitVec.ofInt 64 (originOf v)) :: vs.map b.swap) 0 (Nat.zero_lt_succ _)
    have address : after.regs.pc = loadSwap b (b.swap (BitVec.ofInt 64 (originOf v))) :=
      loadData_pc first loaded
    rw [← address]
    cases vs with
    | nil => exact absurd rfl some
    | cons u us => exact pc (loc, u) (by rw [lstout]; rfl)
  refine ⟨header, ?_⟩
  have inside : ∀ i, i < (vs.map b.swap).length →
      (cell (loadSwap b (b.swap (BitVec.ofInt 64 (originOf v)))) i).toNat < M := by
    intro i short
    rw [List.length_map] at short
    rw [header, cell_toNat low (by omega)]
    omega
  have short : (vs.map b.swap).length < 0x10000 := by
    rw [List.length_map]
    omega
  obtain ⟨h, loaded', stored, -⟩ := loadData_stored st short inside
  rw [loaded'] at loaded
  cases loaded
  intro u written
  obtain ⟨j, within, rfl⟩ := List.getElem_of_mem written
  have word := stored j (by rwa [List.length_map]) (Nat.zero_le j)
  rw [header, cell_ofInt, List.getElem_map] at word
  rw [← word]
  exact memory _ (by rw [lstout]; exact mem_addressed loc vs within)

end

theorem runPass_unwritten {stale : Stale} {s s' : AsmState b} {ls : List (Lexeme Byte Action)}
    (inside : InSpace s) (first : s.pass = .first) (ok : runPass stale s ls = .ok s')
    (errors : s'.numErrors = s.numErrors) : s'.objout = s.objout ∧ s'.lstout = s.lstout := by
  induction ls generalizing s with
  | nil =>
    cases ok
    exact ⟨rfl, rfl⟩
  | cons l ls ih =>
    obtain ⟨t, acted, rest⟩ := runPass_cons.mp ok
    have moves := lexeme_moves inside acted
    have later := runPass_errors moves.inSpace rest
    have earlier := moves.errors
    obtain ⟨-, -, pass, vs, -, emitted⟩ := moves.follows (by omega)
    obtain ⟨objout, lstout⟩ := ih moves.inSpace (pass.trans first) rest (by omega)
    have other : s.pass ≠ .second := by
      rw [first]
      decide
    have objout' := emitted.objout
    have lstout' := emitted.lstout
    rw [if_neg other, List.append_nil] at objout'
    rw [if_neg (fun h => other h.1), List.append_nil] at lstout'
    exact ⟨objout.trans objout', lstout.trans lstout'⟩

/-- The file of an accepted source: its header and the values behind it. -/
theorem accepted_started {stale : Stale} {text : List Byte} {s₁ s₂ : AsmState b}
    (accepted : Accepted stale text s₁ s₂) :
    ∃ v vs, headerValue b ⟨0, 0x3000, .NONE⟩ (yylex text) = some v ∧
      (originOf v + 1) % 0x10000 ≠ 0 ∧
      s₂.objout = b.swap (BitVec.ofInt 64 (originOf v)) :: vs.map b.swap ∧
      s₂.lstout = addressed ((originOf v + 1) % 0x10000 - 1) vs ∧
      s₂.codeLoc = (originOf v + 1) % 0x10000 - 1 + vs.length := by
  obtain ⟨t, ran, rfl⟩ := map_ok accepted.first
  have only := checkDirectives_only t
  have clean := accepted.clean
  have start := startPass_inSpace .first (initialState (b := b))
  have start' := startPass_inSpace .second (checkDirectives t)
  have counted := only.errors
  have zero : (startPass .first (initialState (b := b))).numErrors = 0 := rfl
  have zero' : (startPass .second (checkDirectives t)).numErrors = 0 := rfl
  have clean' := accepted.clean'
  obtain ⟨place, -⟩ := runPass_places start ran (by omega)
  obtain ⟨place', -⟩ := runPass_places start' accepted.second (by omega)
  have same : t.place = s₂.place := Option.some.inj (place.symm.trans place')
  have originated : t.sawOrig ≠ 0 := by
    intro missing
    have complaint : (checkDirectives t).numErrors = t.numErrors + 1 := by
      unfold checkDirectives
      rw [if_pos missing]
      split
      · rfl
      · split <;> rfl
    omega
  have kept : t.sawOrig = s₂.sawOrig := congrArg Place.sawOrig same
  have started : s₂.sawOrig ≠ 0 := kept ▸ originated
  obtain ⟨v, vs, found⟩ := runPass_started start' rfl rfl accepted.second (by omega) started
  obtain ⟨objout, lstout⟩ := runPass_unwritten start rfl ran (by omega)
  have unwritten : (checkDirectives t).objout = [] := (only.objout).trans objout
  have unlisted : (checkDirectives t).lstout = [] := (only.lstout).trans lstout
  have objout' := found.objout
  have lstout' := found.lstout
  simp only [startPass, newInstLine, unwritten, unlisted, List.nil_append] at objout' lstout'
  exact ⟨v, vs, found.header, found.more, objout', lstout', found.codeLoc⟩

/-- A file without code loads, whatever the header. -/
theorem loadsAs_of_empty {s : AsmState b} {M : Nat} {header : BitVec b.registerBits}
    (st : State (SimpleHost M b.registerBits) b.registerBits) (objout : s.objout = [header])
    (lstout : s.lstout = []) : LoadsAs s M st := by
  have short : ([] : List (BitVec b.registerBits)).length < 0x10000 := by simp
  obtain ⟨h, loaded, -⟩ := loadData_stored st short (by simp)
  refine ⟨_, by rw [objectBytes, objout]; exact loaded, ?_, ?_⟩
  · simp [lstout]
  · simp [lstout]

theorem label_listed {stale : Stale} {text : List Byte} {s₁ s₂ : AsmState b}
    (accepted : Accepted stale text s₁ s₂) {before after : List (Lexeme Byte Action)}
    {l : Lexeme Byte Action} (lexemes : yylex text = before ++ l :: after)
    (label : l.token = .label) :
    ∃ q vs, runPass stale (startPass .second s₁) before = .ok q ∧
      findSymbol s₁.symbols (symName l.text) = some ⟨symName l.text, q.codeLoc⟩ ∧
      s₂.lstout = q.lstout ++ addressed q.codeLoc vs := by
  obtain ⟨p, p', q, q', stands⟩ := accepted_stands accepted lexemes
  obtain ⟨started, entered⟩ := stands.label label
  have inside := runPass_inSpace (startPass_inSpace ..) stands.reached'
  have all : runPass stale q (l :: after) = .ok s₂ :=
    runPass_cons.mpr ⟨q', stands.acted', stands.rest'⟩
  obtain ⟨vs, filled⟩ := runPass_filled inside stands.pass' started all
    (stands.errors''.trans stands.errors')
  exact ⟨q, vs, stands.reached', entered, filled.lstout⟩

/-- The image the simulator loads is the image the assembler laid out if and only if
the words survive the two swaps. In the builds with a wide register every word does,
and only the origin counts: the program counter is the address in the header, which is
not reduced to the address space there. In the 16-bit build a value is written through
a signed shift of a `long`, so one that is negative picks up ones in its low byte. -/
theorem image_loaded_iff (b : Build) (stale : Stale) (text : List Byte) (s₂ : AsmState b)
    (M : Nat) (st : State (SimpleHost M b.registerBits) b.registerBits)
    (ok : assemble stale text = .ok s₂) (large : 0xffff ≤ M) :
    ∃ (s₁ : AsmState b) (v : BitVec 64), firstPass stale text = .ok s₁ ∧
      headerValue b ⟨0, 0x3000, .NONE⟩ (yylex text) = some v ∧
      (LoadsAs s₂ M st ↔
        s₂.lstout = [] ∨ SurvivesSwap b (originOf v) (s₂.lstout.map (·.2))) ∧
      ∀ before l after, yylex text = before ++ l :: after → l.token = .label →
        ∃ q vs, runPass stale (startPass .second s₁) before = .ok q ∧
          findSymbol s₁.symbols (symName l.text) = some ⟨symName l.text, q.codeLoc⟩ ∧
          s₂.lstout = q.lstout ++ addressed q.codeLoc vs := by
  obtain ⟨s₁, accepted⟩ := accepted_of_assemble ok
  obtain ⟨v, vs, header, more, objout, lstout, codeLoc⟩ := accepted_started accepted
  have room := (runPass_inSpace (startPass_inSpace .second s₁) accepted.second).2
  refine ⟨s₁, v, accepted.first, header, ?_, fun before l after lexemes label =>
    label_listed accepted lexemes label⟩
  have low : 0 ≤ (originOf v + 1) % 0x10000 - 1 := by omega
  constructor
  · intro loads
    cases vs with
    | nil => exact .inl lstout
    | cons u us =>
      rw [lstout, values_addressed]
      refine .inr ((survives_iff more rfl).mpr ?_)
      exact survives_of_loadsAs st large low (codeLoc ▸ room) (List.cons_ne_nil _ _) objout lstout
        loads
  · rintro (none | survives)
    · cases vs with
      | nil => exact loadsAs_of_empty st objout none
      | cons u us =>
        rw [lstout] at none
        cases none
    · rw [lstout, values_addressed] at survives
      obtain ⟨address, kept⟩ := (survives_iff more rfl).mp survives
      exact loadsAs_of_survives st large low (codeLoc ▸ room) objout lstout address kept

/-- The words and the listing of an assembled file. -/
def Outcome.output : Outcome b → Option (List (BitVec b.registerBits) × List (Int × BitVec 64))
  | .ok s => some (s.objout, s.lstout)
  | _ => none

theorem eq_ok_of_output {outcome : Outcome b} {objout : List (BitVec b.registerBits)}
    {lstout : List (Int × BitVec 64)} (output : outcome.output = some (objout, lstout)) :
    ∃ s, outcome = .ok s ∧ s.objout = objout ∧ s.lstout = lstout := by
  cases outcome with
  | ok s =>
    cases output
    exact ⟨s, rfl, rfl, rfl⟩
  | failed s => cases output
  | undefined => cases output

def emptyMachine (b : Build) : State (SimpleHost 0xffff b.registerBits) b.registerBits :=
  ⟨Registers.initial _, fun _ => 0, ⟨[], [], []⟩⟩

theorem image_loaded_iff_small : ∃ s₂ : AsmState .bit16,
    assemble (fun _ _ => 0) smallSource = .ok s₂ ∧ LoadsAs s₂ 0xffff (emptyMachine .bit16) := by
  have output : (assemble (b := .bit16) (fun _ _ => 0) smallSource).output =
      some ([0x0030, 0x0500], [(0x3000, 5)]) := by decide +kernel
  obtain ⟨s₂, ok, -, lstout⟩ := eq_ok_of_output output
  obtain ⟨s₁, v, -, header, loads, -⟩ :=
    image_loaded_iff .bit16 (fun _ _ => 0) smallSource s₂ 0xffff (emptyMachine .bit16) ok
      (by decide)
  have origin : headerValue .bit16 ⟨0, 0x3000, .NONE⟩ (yylex smallSource) = some 0x3000 := by
    decide +kernel
  cases origin.symm.trans header
  refine ⟨s₂, ok, loads.mpr (.inr ⟨by decide +kernel, ?_⟩)⟩
  intro u written
  rw [lstout] at written
  cases List.mem_singleton.mp written
  decide

/-- An origin in the upper half of the address space. -/
def highSource : List Byte := bytes ".ORIG x8000\nA .FILL x5\n.END\n"

theorem high_origin_misplaced : ∃ s₂ : AsmState .bit16,
    assemble (fun _ _ => 0) highSource = .ok s₂ ∧ s₂.lstout = [(0x8000, 5)] ∧
      (loadData .bit16 (objectBytes s₂) (emptyMachine .bit16)).map (·.2.regs.pc) = some 0x80ff ∧
      ¬ LoadsAs s₂ 0xffff (emptyMachine .bit16) := by
  have output : (assemble (b := .bit16) (fun _ _ => 0) highSource).output =
      some ([0xff80, 0x0500], [(0x8000, 5)]) := by decide +kernel
  obtain ⟨s₂, ok, objout, lstout⟩ := eq_ok_of_output output
  have misplaced : (loadData .bit16 (objectBytes s₂) (emptyMachine .bit16)).map (·.2.regs.pc) =
      some 0x80ff := by
    rw [objectBytes, objout]
    decide +kernel
  refine ⟨s₂, ok, lstout, misplaced, ?_⟩
  rintro ⟨after, loaded, pc, -⟩
  have first := pc (0x8000, 5) (by rw [lstout]; rfl)
  rw [loaded, Option.map_some, Option.some.injEq, first] at misplaced
  exact absurd misplaced (by decide)

end LC3Tools.Assembler
