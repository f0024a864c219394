import LC3Tools.Assembler.Immediates
import LC3Tools.Assembler.Fields
import LC3Tools.Lcc.GlobalAddress

/-! `check_ldr` of `lc3pp`, which looks for a load behind a line `.LC3GLOBAL`, against what
`lc3as` makes of that line. -/
namespace LC3Tools.Emit
open Flex Regex Assembler Pattern BitFields

/-- `if (!p(*c)) return 0; c++;` -/
def expect (p : Byte → Bool) : List Byte → Option (List Byte)
  | [] => none
  | c :: rest => if p c then some rest else none

def letter (c : Char) (b : Byte) : Bool := tolower b = byte c

/-- `reg_num+'0'`. -/
def regLetter (regNum : Fin 8) : Byte := BitVec.ofNat 8 regNum + byte '0'

def expectReg (regNum : Fin 8) (c : List Byte) : Option (List Byte) :=
  (expect (letter 'r') c).bind (expect (· = regLetter regNum))

/-- A `long` that `strtol` keeps within its range, stored as an `int`. -/
def asInt (v : Int) : Int := (BitVec.ofInt 32 (max (-2 ^ 63) (min v (2 ^ 63 - 1)))).toInt

/-- The offset. Behind an x the end pointer is never where it was, so that nothing at all
counts as zero. -/
def checkOffset (c : List Byte) : Option Int :=
  if c.head?.map tolower = some (byte 'x') then some (asInt ((strtol 16 c.tail).getD 0))
  else (strtol 10 (if c.head? = some (byte '#') then c.tail else c)).map asInt

def checkLdr (line : List Byte) (regNum : Fin 8) : Option Int :=
  (expect (letter 'l') (line.dropWhile isspace)).bind fun c =>
  (expect (letter 'd') c).bind fun c =>
  (expect (letter 'r') c).bind fun c =>
  (expectReg regNum (c.dropWhile isspace)).bind fun c =>
  (expect (· = byte ',') (c.dropWhile isspace)).bind fun c =>
  (expectReg regNum (c.dropWhile isspace)).bind fun c =>
  (expect (· = byte ',') (c.dropWhile isspace)).bind fun c =>
  checkOffset (c.dropWhile isspace)

/-- The line is `LDR Ri, Rj, #k` for the 16-bit `lc3as`, with the number written as n: the
scanner's rule for the operation, the one for its operands, and the field of six bits. -/
structure ReadsLdr (line : List Byte) (i j : Fin 8) (n k : Int) : Prop where
  scanned : ∃ blanks name operands v, line ++ [lineFeed] = blanks ++ (name ++ operands) ∧
    (∀ x ∈ blanks, isblank x) ∧ (lit "LDR").Matches name ∧ oRRI.Matches operands ∧
    regDigit (operand1 (operands ++ [0])) = BitVec.ofNat 64 i ∧
    regDigit (operand2 (operands ++ [0])) = BitVec.ofNat 64 j ∧
    written (operand3 (operands ++ [0])) = some n ∧
    readVal .bit16 (operand3 (operands ++ [0])) 6 = .ok v ∧ k = (v.setWidth 6).toInt

section
variable {c rest sep u imm : List Byte} {regNum : Fin 8}

theorem expect_bind {p : Byte → Bool} {x : Byte} {f : List Byte → Option Int} {off : Int}
    (found : (expect p (x :: rest)).bind f = some off) : p x ∧ f rest = some off := by
  rw [expect] at found
  split at found
  · rename_i same
    exact ⟨same, found⟩
  · cases found

theorem expectReg_bind {f : List Byte → Option Int} {off : Int} (named : isRegisterName u)
    (found : (expectReg regNum (u ++ rest)).bind f = some off) :
    f rest = some off ∧ ∀ more, regDigit (u ++ more) = BitVec.ofNat 64 regNum := by
  have value : ∀ n : Fin 8, (regLetter n).signExtend 64 - 48 = BitVec.ofNat 64 n := by
    decide +kernel
  obtain ⟨x, d, rfl, -, digit⟩ := isRegisterName_cons named
  rw [expectReg, Option.bind_assoc] at found
  obtain ⟨-, second⟩ := expect_bind found
  obtain ⟨same, behind⟩ := expect_bind second
  rw [decide_eq_true_iff] at same
  subst same
  exact ⟨behind, fun more => value regNum⟩

theorem comma_bind {f : List Byte → Option Int} {off : Int} (separated : opSep.Matches sep)
    (start : ∀ d ∈ rest.head?, isspace d = false ∧ d ≠ byte ',')
    (found : (expect (· = byte ',') ((sep ++ rest).dropWhile isspace)).bind f = some off) :
    ∃ c, c.dropWhile isspace = rest ∧ f c = some off := by
  obtain ⟨before, x, after, blank, mark, blank', rfl⟩ := matches_opSep.mp separated
  have stop : rest.dropWhile isspace = rest := by
    cases rest with
    | nil => rfl
    | cons e rest => exact List.dropWhile_cons_of_neg (by simp [(start e rfl).1])
  rw [List.append_assoc, skip_blanks blank, List.cons_append] at found
  by_cases comma : x = byte ','
  · subst comma
    rw [List.dropWhile_cons_of_neg (by decide)] at found
    exact ⟨after ++ rest, by rw [skip_blanks blank', stop], (expect_bind found).2⟩
  · have white : isspace x := (blank_space x (mark.resolve_left comma)).1
    rw [List.dropWhile_cons_of_pos white, skip_blanks blank', stop] at found
    cases rest with
    | nil => cases found
    | cons e rest => exact absurd (of_decide_eq_true (expect_bind found).1) (start e rfl).2

/-- A character behind a number that is not part of it. -/
def Stops (rest : List Byte) : Prop := ∀ d ∈ rest.head?, isDigitOf 16 d = false ∧
    tolower d ≠ byte 'x'

theorem stops_ten (stops : Stops rest) : ∀ d ∈ rest.head?, isDigitOf 10 d = false ∧
    tolower d ≠ byte 'x' := by
  intro d head
  obtain ⟨digit, plain⟩ := stops d head
  refine ⟨?_, plain⟩
  by_contra ten
  rw [Bool.not_eq_false] at ten
  rw [isDigitOf_mono (by decide) ten] at digit
  cases digit

theorem endline_stops : ∀ x, (isDigitOf 16 x ∨ tolower x = byte 'x') →
    (endline.deriv x).isEmpty := by
  decide +kernel

theorem stops_endline (ending : endline.Matches rest) : Stops rest := by
  intro d head
  cases rest with
  | nil => cases head
  | cons e rest =>
    cases head
    refine ⟨?_, fun letter => not_matches_cons (endline_stops d (.inr letter)) _ ending⟩
    by_contra digit
    exact not_matches_cons (endline_stops d (.inl (Bool.not_eq_false _ ▸ digit))) _ ending

theorem stops_dropLast (stops : Stops rest) : Stops rest.dropLast := by
  intro d head
  match rest, head with
  | e :: f :: rest, head => exact stops d head

theorem signed_digits {p : Byte → Bool}
    (matched : (Regex.seq (opt (lit "-")) (plus (.char p))).Matches u) :
    ∃ (minus : Bool) (ds : List Byte), u = (if minus then [byte '-'] else []) ++ ds ∧ ds ≠ [] ∧
      ∀ d ∈ ds, p d := by
  obtain ⟨sign, digits, hsign, hdigits, rfl⟩ := matches_seq.mp matched
  obtain ⟨first, rest, ⟨d, digit, rfl⟩, hrest, rfl⟩ := matches_seq.mp hdigits
  have all : ∀ e ∈ [d] ++ rest, p e := by
    intro e mem
    rcases List.mem_append.mp mem with mem | mem
    · cases List.mem_singleton.mp mem
      exact digit
    · exact matches_star_char.mp hrest e mem
  rcases matches_alt.mp hsign with empty | one
  · exact ⟨false, _, by rw [matches_epsilon.mp empty]; rfl, by simp, all⟩
  · have minus := (matches_lit_one (c := byte '-') (by decide)
      (caseless _ (by decide) (by decide))).mp one
    exact ⟨true, _, by rw [minus]; rfl, by simp, all⟩

theorem signed_head (minus : Bool) {ds : List Byte} (nonempty : ds ≠ [])
    (all : ∀ d ∈ ds, isDigitOf 16 d) :
    ∃ d rest, (if minus then [byte '-'] else []) ++ ds = d :: rest ∧
      isspace d = false ∧ d ≠ byte ',' ∧ d ≠ byte '#' ∧ tolower d ≠ byte 'x' := by
  have plain : ∀ d, isDigitOf 16 d → isspace d = false ∧ d ≠ byte ',' ∧ d ≠ byte '#' ∧
    tolower d ≠ byte 'x' := by
    decide +kernel
  cases minus with
  | true => exact ⟨byte '-', ds, rfl, by decide⟩
  | false =>
    obtain ⟨d, rest, rfl⟩ := List.exists_cons_of_ne_nil nonempty
    exact ⟨d, rest, rfl, plain d (all d List.mem_cons_self)⟩

/-- The number that an operand is the text of, whatever ends it. -/
theorem immed_written (matched : immed.Matches imm) :
    (∃ n, ∀ rest, Stops rest → written (imm ++ rest) = some n) ∧
      ∀ rest, ∀ d ∈ (imm ++ rest).head?, isspace d = false ∧ d ≠ byte ',' := by
  have letter : ∀ x, tolower x = byte 'x' → isspace x = false ∧ x ≠ byte ',' := by decide +kernel
  rcases matches_alt.mp matched with hexadecimal | digits
  · obtain ⟨mark, number, hmark, hnumber, rfl⟩ := matches_seq.mp hexadecimal
    obtain ⟨x, rfl, isX⟩ := (matches_letter (r := byte 'x') (by decide)).mp hmark
    obtain ⟨minus, ds, rfl, nonempty, all⟩ := signed_digits hnumber
    refine ⟨⟨if minus then -(digitsValue 16 ds : Int) else digitsValue 16 ds, fun rest stops => ?_⟩,
      fun rest d head => ?_⟩
    · have read := strtol_signed le_rfl minus nonempty all stops
      simp only [written, List.cons_append, List.head?_cons, Option.map_some, isX, true_or, if_true,
        List.tail_cons, List.append_assoc]
      exact read
    · cases head
      exact letter x isX
  · obtain ⟨mark, number, hmark, hnumber, rfl⟩ := matches_seq.mp digits
    obtain ⟨minus, ds, rfl, nonempty, all⟩ := signed_digits hnumber
    have ten : ∀ d ∈ ds, isDigitOf 10 d := fun d inside => isDigitOf_ten (all d inside)
    obtain ⟨first, tail, shape, start⟩ := signed_head minus nonempty
      fun d inside => isDigitOf_mono (by decide) (ten d inside)
    let value := if minus then -(digitsValue 10 ds : Int) else digitsValue 10 ds
    rcases matches_alt.mp hmark with empty | one
    · rw [matches_epsilon.mp empty, List.nil_append]
      refine ⟨⟨value, fun rest stops => ?_⟩, fun rest d head => ?_⟩
      · have read := strtol_signed (by decide) minus nonempty ten (stops_ten stops)
        rw [← List.append_assoc, shape] at read
        rw [shape]
        simp only [written, List.cons_append, List.head?_cons, Option.map_some, Option.some.injEq,
          start.2.2.2,
          start.2.2.1, false_or, if_false]
        exact read
      · rw [shape] at head
        cases head
        exact ⟨start.1, start.2.1⟩
    · have hash := (matches_lit_one (c := byte '#') (by decide)
        (caseless _ (by decide) (by decide))).mp one
      rw [hash]
      refine ⟨⟨value, fun rest stops => ?_⟩, fun rest d head => ?_⟩
      · have read := strtol_signed (by decide) minus nonempty ten (stops_ten stops)
        have unmarked : tolower (byte '#') ≠ byte 'x' := by decide
        simp only [written, List.cons_append, List.head?_cons, Option.map_some, Option.some.injEq,
          unmarked,
          or_true, if_false, if_true, List.tail_cons, List.append_assoc]
        exact read
      · cases head
        decide

theorem checkOffset_written {n : Int} (value : written c = some n) :
    checkOffset c = some (asInt n) := by
  unfold written at value
  unfold checkOffset
  by_cases hex : c.head?.map tolower = some (byte 'x')
  · simp only [hex, true_or, if_true] at value
    rw [if_pos hex, value, Option.getD_some]
  · simp only [hex, false_or, if_false] at value
    rw [if_neg hex, value, Option.map_some]

theorem readVal_six {v : BitVec 64} {n : Int} (value : written c = some n)
    (read : readVal .bit16 c 6 = .ok v) :
    n = (v.setWidth 6).toInt ∨ n = (v.setWidth 6).toInt + 0x10000 := by
  obtain ⟨n, u, found, low, high, same, checked, field, -⟩ := readVal_ok read
  rw [value] at found
  cases found
  have inside := (out_of_range_iff u 6).mp checked
  have number := handles_toInt low high
  rw [← same] at number
  have narrow : (v.setWidth 6).toInt = u.toInt := by
    have low : v.toNat % 2 ^ 6 = u.toNat % 2 ^ 6 := by
      rw [← and_mask_toNat (by decide), field, and_mask_toNat (by decide)]
    have cut : v.setWidth 6 = u.setWidth 6 := by
      apply BitVec.eq_of_toNat_eq
      rw [BitVec.toNat_setWidth, BitVec.toNat_setWidth, low]
    rw [cut, BitVec.toInt_setWidth, Int.bmod_def]
    have value := BitVec.toInt_eq_toNat_cond u
    have bound := u.isLt
    simp only [InRange] at inside
    split at value <;> split <;> omega
  rw [narrow, number]
  split <;> omega

theorem matches_oRRI {w : List Byte} (matched : oRRI.Matches w) : ∃ space u sep u' sep' imm ending,
    w = space ++ (u ++ (sep ++ (u' ++ (sep' ++ (imm ++ ending))))) ∧ (∀ x ∈ space, isblank x) ∧
      isRegisterName u ∧ opSep.Matches sep ∧ isRegisterName u' ∧ opSep.Matches sep' ∧
        immed.Matches imm ∧
      endline.Matches ending := by
  unfold oRRI at matched
  simp only [matches_seq] at matched
  obtain ⟨space, _, hspace,
    ⟨u, _, hu, ⟨sep, _, hsep, ⟨u', _, hu', ⟨sep', _, hsep', ⟨imm, ending, himm, hending, rfl⟩,
    rfl⟩, rfl⟩, rfl⟩, rfl⟩, rfl⟩ := matched
  exact ⟨space, u, sep, u', sep', imm, ending, rfl, (matches_plus_space.mp hspace).2,
    matches_register.mp hu, hsep,
    matches_register.mp hu', hsep', himm, hending⟩

theorem stops_append (nonempty : rest ≠ []) (stops : Stops rest) (more : List Byte) :
    Stops (rest ++ more) := by
  obtain ⟨e, rest, rfl⟩ := List.exists_cons_of_ne_nil nonempty
  exact stops

theorem asInt_small {n : Int} (low : -2 ^ 31 ≤ n) (high : n < 2 ^ 31) : asInt n = n := by
  have kept : max (-2 ^ 63) (min n (2 ^ 63 - 1)) = n := by omega
  rw [asInt, kept, BitVec.toInt_ofInt_eq_self (by decide) low high]

theorem regDigit_injective : ∀ i j : Fin 8, BitVec.ofNat 64 i = BitVec.ofNat 64 j →
    i = j := by decide

theorem register_start (named : isRegisterName u) :
    ∀ rest, ∀ d ∈ (u ++ rest).head?, isspace d = false ∧ d ≠ byte ',' := by
  obtain ⟨e, f, rfl, letter, -⟩ := isRegisterName_cons named
  intro rest d head
  cases head
  exact register_letter e letter

theorem ldr_letters {name : List Byte} (named : (lit "LDR").Matches name) :
    ∃ l d r, name = [l, d, r] ∧ isspace l = false := by
  have letters : name.map tolower = [byte 'l', byte 'd', byte 'r'] := matches_lit.mp named
  have printed : ∀ l, tolower l = byte 'l' → isspace l = false := by decide +kernel
  have size := congrArg List.length letters
  rw [List.length_map] at size
  obtain ⟨l, d, r, rfl⟩ := List.length_eq_three.mp size
  exact ⟨l, d, r, rfl, printed l (List.cons.inj letters).1⟩

/-- What `check_ldr` recognises, `lc3as` reads with the same registers, and with an offset
that is the same for 16 bits. -/
theorem checkLdr_reads {line : List Byte} {i j : Fin 8} {n k off : Int}
    (found : checkLdr line regNum = some off) (reads : ReadsLdr line i j n k) :
    off = n ∧ i = regNum ∧ j = regNum ∧ (n = k ∨ n = k + 0x10000) := by
  obtain ⟨blanks, name, operands, v, shape, blank, named, matched, first, second, number, read,
    rfl⟩ := reads.scanned
  have narrow := readVal_six number read
  obtain ⟨space, u, sep, u', sep', imm, ending, rfl, spaces, hu, hsep, hu', hsep', himm, hending⟩ :=
    matches_oRRI matched
  obtain ⟨⟨value, whole⟩, start⟩ := immed_written himm
  have nonempty : ending ≠ [] := by
    rintro rfl
    exact absurd ((nullable_iff _).mpr hending) (by decide)
  -- the line ends before the line feed
  have cut : line = blanks ++
      (name ++ (space ++ (u ++ (sep ++ (u' ++ (sep' ++ (imm ++ ending.dropLast))))))) := by
    have dropped := congrArg List.dropLast shape
    simp only [List.dropLast_concat] at dropped
    rw [dropped]
    simp [List.dropLast_append_of_ne_nil, nonempty]
  -- what the assembler reads
  simp only [operand3, operand2, operand1, List.append_assoc, skip_blanks spaces,
    stop_register hu] at first second number
  rw [nextOperand_register hu hsep hu'] at second number
  rw [nextOperand_behind hu' hsep' (start _),
    whole _ (stops_append nonempty (stops_endline hending) _)] at number
  cases number
  -- what the linker reads
  obtain ⟨l, d, r, rfl, printed⟩ := ldr_letters named
  subst cut
  unfold checkLdr at found
  rw [skip_blanks blank, List.cons_append, List.dropWhile_cons_of_neg (by simp [printed])] at found
  have found : _ = some off := (expect_bind (expect_bind (expect_bind found).2).2).2
  change (expectReg regNum ((space ++ _).dropWhile isspace)).bind _ = _ at found
  rw [skip_blanks spaces, stop_register hu] at found
  obtain ⟨found, same⟩ := expectReg_bind hu found
  obtain ⟨c, behind, found⟩ := comma_bind hsep (register_start hu' _) found
  rw [behind] at found
  obtain ⟨found, same'⟩ := expectReg_bind hu' found
  obtain ⟨c, behind, found⟩ := comma_bind hsep' (start _) found
  rw [behind] at found
  rw [checkOffset_written (whole _ (stops_dropLast (stops_endline hending)))] at found
  cases found
  rw [same] at first
  rw [same'] at second
  refine ⟨?_, (regDigit_injective _ _ first).symm, (regDigit_injective _ _ second).symm, narrow⟩
  have low := BitVec.le_toInt (v.setWidth 6)
  have high := BitVec.toInt_lt (x := v.setWidth 6)
  exact asInt_small (by omega) (by omega)

end

/-- Both forms of the sequence: every immediate fits, and from any state the destination
gets the address, or the word there, and nothing else changes. -/
def AddressExact (globals : String → Word) (dst base : Fin 8) (offset : Int) : Prop :=
  ∀ withLDR, (∀ line ∈ calculateAddress dst base offset withLDR, line.Fits) ∧
    ∀ m, Executes globals (calculateAddress dst base offset withLDR) m
      (m.set dst (accessed m base offset withLDR))

/-- Where the next line is recognised, the sequence with its offset folded in can be
assembled, and leaves the registers that the plain sequence and the line leave. -/
def FusesRight (globals : String → Word) (dst base : Fin 8) (offset : Int)
    (line : List Byte) : Prop :=
  ∀ off i j n k, checkLdr line dst = some off → ReadsLdr line i j n k →
    (∀ l ∈ calculateAddress dst base (offset + off) true, l.Fits) ∧
      ∀ m, ∃ fused plain, Executes globals (calculateAddress dst base (offset + off) true) m fused ∧
        Executes globals (calculateAddress dst base offset false ++ [.load i j k]) m plain ∧
          fused.reg = plain.reg

/-- The linker adds the offset of the load to its own as an int. -/
theorem fuses_iff {globals : String → Word} {dst base : Fin 8} (apart : base ≠ dst) {offset : Int}
    (low : -0x8000 ≤ offset) (high : offset < 0x8000) (line : List Byte) :
    AddressExact globals dst base offset ∧ FusesRight globals dst base offset line ↔
      ∀ i j n k, checkLdr line dst ≠ none → ReadsLdr line i j n k →
        -0x8000 ≤ offset + n ∧ offset + n ≤ 0xffff := by
  have exact : AddressExact globals dst base offset := fun withLDR =>
    ⟨(calculateAddress_fits offset withLDR).mpr (by omega),
      fun m => calculateAddress_runs apart offset withLDR⟩
  rw [and_iff_right exact]
  constructor
  · intro right i j n k recognised reads
    obtain ⟨off, found⟩ := Option.ne_none_iff_exists'.mp recognised
    obtain ⟨rfl, -⟩ := checkLdr_reads found reads
    exact (calculateAddress_fits _ true).mp (right _ i j _ k found reads).1
  · intro narrow off i j n k found reads
    have bounds := narrow i j n k (by simp [found]) reads
    obtain ⟨rfl, rfl, rfl, same⟩ := checkLdr_reads found reads
    refine ⟨(calculateAddress_fits _ true).mpr bounds, fun m => ?_⟩
    have address : Executes globals (calculateAddress j base offset false) m _ :=
      calculateAddress_runs apart offset false
    have plain := address.before (calculateAddress_closed j base offset false)
      (show [Line.load j j k].all Line.plain from rfl)
    refine ⟨_, _, calculateAddress_runs apart _ true, plain, ?_⟩
    have word : BitVec.ofInt 16 off = BitVec.ofInt 16 k := by
      rcases same with rfl | rfl
      · rfl
      · rw [BitVec.ofInt_add]
        exact BitVec.add_zero _
    simp only [accessed, run_cons, run_nil, Line.effect, Machine.set_same, Machine.set_set,
      Machine.set_mem,
      BitVec.ofInt_add, word, BitVec.add_assoc, if_true, Bool.false_eq_true, if_false]

theorem fuses_at_five : AddressExact (fun _ => 0) 0 4 5 ∧
    FusesRight (fun _ => 0) 0 4 5 (bytes "LDR R0, R0, #-2") := by
  refine (fuses_iff (by decide) (by decide) (by decide) _).mpr fun i j n k recognised reads => ?_
  obtain ⟨off, found⟩ := Option.ne_none_iff_exists'.mp recognised
  obtain ⟨rfl, -⟩ := checkLdr_reads found reads
  have two : checkLdr (bytes "LDR R0, R0, #-2") 0 = some (-2) := by decide +kernel
  rw [two] at found
  cases found
  decide

theorem not_fused_behind_one : ¬ (AddressExact (fun _ => 0) 0 4 1 ∧
    FusesRight (fun _ => 0) 0 4 1 (bytes "LDR R0, R0, xFFFF")) := by
  rintro ⟨-, right⟩
  have reads : ReadsLdr (bytes "LDR R0, R0, xFFFF") 0 0 0xffff (-1) := by
    refine ⟨⟨[], bytes "LDR", bytes " R0, R0, xFFFF\n", -1, ?_⟩⟩
    refine ⟨by decide, by simp, ?_,
      ?_, by decide +kernel, by decide +kernel, by decide +kernel, by decide +kernel,
      by decide⟩
    · exact matches_lit.mpr rfl
    · exact (nullable_derivs ..).mp (by decide +kernel)
  have bounds := (calculateAddress_fits _ true).mp
    (right 0xffff 0 0 0xffff (-1) (by decide +kernel) reads).1
  revert bounds
  decide

end LC3Tools.Emit
