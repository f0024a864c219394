import LC3Tools.Assembler.Encode
import LC3Tools.Assembler.Image

/-! Numbers as operands. The 16-bit build checks every number against its field. The other
three define the check as the constant 0, so they write the low bits of any `long`. -/
namespace LC3Tools.Assembler
open Flex BitFields Maker Sim

variable {b : Build}

/-- The number that an operand is the text of. -/
def written (text : List Byte) : Option Int :=
  let hex := text.head?.map tolower = some (byte 'x')
  strtol (if hex then 16 else 10) (if hex ∨ text.head? = some (byte '#') then text.tail else text)

/-- A number of the register type, with or without a sign. -/
def IsRegister (b : Build) (n : Int) : Prop := -2 ^ (b.registerBits - 1) ≤ n ∧
    n < 2 ^ b.registerBits

instance (b : Build) (n : Int) : Decidable (IsRegister b n) := inferInstanceAs (Decidable (_ ∧ _))

/-- What the decoder gives is the number, and nothing was cut off it. -/
structure Exact (b : Build) (n : Int) (d : BitVec b.registerBits) : Prop where
  congruent : d = BitVec.ofInt _ n
  whole : IsRegister b n

section reading
variable {text : List Byte} {v : BitVec 64} {bits : Nat}

theorem readRawVal_ok (read : readRawVal b text = .ok v) : ∃ n, written text = some n ∧
    -2 ^ 63 ≤ n ∧ n < 2 ^ 63 ∧ v = b.handles64BitLongs (BitVec.ofInt 64 n) := by
  simp only [readRawVal] at read
  split at read
  · rename_i n value
    split at read
    · rename_i inside
      cases read
      exact ⟨n, value, inside.1, inside.2, rfl⟩
    · cases read
  · cases read

theorem toInt_long {n : Int} (low : -2 ^ 63 ≤ n) (high : n < 2 ^ 63) :
    (BitVec.ofInt 64 n).toInt = n := by
  rw [BitVec.toInt_ofInt, Int.bmod_eq_of_le] <;> omega

theorem handles_toInt {n : Int} (low : -2 ^ 63 ≤ n) (high : n < 2 ^ 63) :
    (Build.bit16.handles64BitLongs (BitVec.ofInt 64 n)).toInt =
      if 0x8000 ≤ n ∧ n < 0x10000 then n - 0x10000 else n := by
  have value := toInt_long low high
  simp only [Build.handles64BitLongs, value]
  by_cases unsigned : 0x8000 ≤ n ∧ n < 0x10000
  · rw [if_pos ⟨unsigned.2, unsigned.1⟩, if_pos unsigned]
    have small : (BitVec.ofInt 64 n).toNat < 2 ^ 16 := by
      rw [BitVec.toNat_ofInt]
      omega
    have apart : BitVec.ofInt 64 n &&& BitVec.ofInt 64 (-65536) = 0 := by
      have upper : BitVec.ofInt 64 (-65536) = ~~~mask 64 16 := by decide
      rw [upper]
      exact (and_not_mask (by decide)).mpr small
    rw [← BitVec.add_eq_or_of_and_eq_zero _ _ apart, ← BitVec.ofInt_add]
    have moved : n + -65536 = n - 65536 := by omega
    rw [moved, toInt_long (by omega) (by omega)]
  · rw [if_neg (fun h => unsigned ⟨h.2, h.1⟩), if_neg unsigned, value]

theorem handles_other (other : b ≠ .bit16) (v : BitVec 64) : b.handles64BitLongs v = v := by
  cases b with
  | bit16 => exact absurd rfl other
  | bit32 | bit32Wide | bit64Wide => rfl

theorem out_of_range_iff (v : BitVec 64) (bits : Nat) :
    Build.bit16.checkOutOfRange v bits = false ↔ InRange bits v.toInt := by
  simp only [Build.checkOutOfRange, decide_eq_false_iff_not, InRange]
  omega

theorem field_above_sign (v : BitVec 64) (bits : Nat) :
    (v ||| ~~~((1#64 <<< bits) - 1)) &&& mask 64 bits = v &&& mask 64 bits := by
  have none : ~~~((1#64 <<< bits) - 1) &&& mask 64 bits = 0 := by
    change ~~~mask 64 bits &&& mask 64 bits = 0
    rw [BitVec.and_comm]
    exact BitVec.and_not_self _
  rw [BitVec.and_or_distrib_right, none]
  exact BitVec.or_zero

theorem readVal_ok (read : readVal b text bits = .ok v) :
    ∃ n u, written text = some n ∧ -2 ^ 63 ≤ n ∧ n < 2 ^ 63 ∧
      u = b.handles64BitLongs (BitVec.ofInt 64 n) ∧ b.checkOutOfRange u bits = false ∧
      v &&& mask 64 bits = u &&& mask 64 bits ∧ (bits = b.loadRegBitCount → v = u) := by
  unfold readVal at read
  cases raw : readRawVal b text with
  | error m =>
    rw [raw] at read
    cases read
  | ok u =>
    obtain ⟨n, value, low, high, same⟩ := readRawVal_ok raw
    rw [raw] at read
    simp only [Except.bind] at read
    refine ⟨n, u, value, low, high, same, ?_⟩
    split at read
    · cases read
    · rename_i inside
      refine ⟨by simpa using inside, ?_⟩
      split at read
      · rename_i extended
        cases read
        exact ⟨field_above_sign u bits, fun full => absurd full extended.1⟩
      · cases read
        exact ⟨rfl, fun _ => rfl⟩

theorem readUnsignedVal_ok (read : readUnsignedVal b text bits = .ok v) :
    ∃ n, written text = some n ∧ -2 ^ 63 ≤ n ∧ n < 2 ^ 63 ∧
      v = b.handles64BitLongs (BitVec.ofInt 64 n) ∧ 0 ≤ v.toInt ∧
      b.checkOutOfRangeUnsigned v bits = false := by
  unfold readUnsignedVal at read
  cases raw : readRawVal b text with
  | error m =>
    rw [raw] at read
    cases read
  | ok u =>
    obtain ⟨n, value, low, high, same⟩ := readRawVal_ok raw
    rw [raw] at read
    simp only [Except.bind] at read
    split at read
    · cases read
    · rename_i sign
      split at read
      · cases read
      · rename_i inside
        cases read
        exact ⟨n, value, low, high, same, by omega, by simpa using inside⟩

theorem storeInt_low {k : Nat} (narrow : k ≤ 32) (old v : BitVec 64) :
    storeInt old v &&& mask 64 k = v &&& mask 64 k := by
  have inside : k < 64 := by omega
  apply BitVec.eq_of_getLsbD_eq
  intro i bound
  have upper : (0xffffffff00000000 : BitVec 64).getLsbD i = decide (32 ≤ i) := by
    have all : ∀ j : Fin 64, (0xffffffff00000000 : BitVec 64).getLsbD j.val = decide
      (32 ≤ j.val) := by decide
    exact all ⟨i, bound⟩
  have lower : (0xffffffff : BitVec 64).getLsbD i = decide (i < 32) := by
    have all : ∀ j : Fin 64, (0xffffffff : BitVec 64).getLsbD j.val = decide
      (j.val < 32) := by decide
    exact all ⟨i, bound⟩
  simp only [storeInt, BitVec.getLsbD_and, BitVec.getLsbD_or, getLsbD_mask inside]
  by_cases low : i < k
  · have half : i < 32 := by omega
    have half' : ¬ 32 ≤ i := by omega
    simp only [low, decide_true, Bool.and_true]
    rw [upper, lower]
    simp [half]
  · simp [low]

end reading

section exact
variable {k w : Nat} {n : Int}

theorem mask_bmod (less : k ≤ w) (narrow : k < 64) (n : Int) :
    BitVec.ofInt 64 n &&& mask 64 k = BitVec.ofInt 64 (n.bmod (2 ^ w)) &&& mask 64 k := by
  have residue (m : Int) :
      (((BitVec.ofInt 64 m).toNat % 2 ^ k : Nat) : Int) = m % ((2 ^ k : Nat) : Int) := by
    have divides : ((2 ^ k : Nat) : Int) ∣ ((2 ^ 64 : Nat) : Int) :=
      Int.natCast_dvd_natCast.mpr (Nat.pow_dvd_pow 2 (by omega))
    rw [BitVec.toNat_ofInt, Int.natCast_emod, Int.toNat_of_nonneg (Int.emod_nonneg _ (by simp))]
    exact Int.emod_emod_of_dvd m divides
  have same : n.bmod (2 ^ w) % ((2 ^ k : Nat) : Int) = n % ((2 ^ k : Nat) : Int) := by
    have divides : ((2 ^ k : Nat) : Int) ∣ ((2 ^ w : Nat) : Int) :=
      Int.natCast_dvd_natCast.mpr (Nat.pow_dvd_pow 2 less)
    rw [← Int.emod_emod_of_dvd _ divides, Int.bmod_emod, Int.emod_emod_of_dvd _ divides]
  apply BitVec.eq_of_toNat_eq
  rw [and_mask_toNat narrow, and_mask_toNat narrow]
  apply Int.ofNat_inj.mp
  rw [residue, residue, same]

theorem bmod_of_inRange {m : Int} (positive : 0 < w) (inside : InRange w m) :
    m.bmod (2 ^ w) = m := by
  have half := two_pow_half positive
  have powers (j : Nat) : (2 : Int) ^ j = ((2 ^ j : Nat) : Int) := by simp
  obtain ⟨low, high⟩ := inside
  rw [powers] at low high
  apply Int.bmod_eq_of_le <;> omega

/-- A field with a sign gives a number back, modulo the register, just when the number,
taken as a register with a sign, is in the range of the field. -/
theorem signed_exact_iff (positive : 0 < k) (less : k ≤ w) (wide : w ≤ 64) (narrow : k < 64)
    (n : Int) :
    (signed k (BitVec.ofInt 64 n)).setWidth w = BitVec.ofInt w n ↔ InRange k (n.bmod (2 ^ w)) := by
  have low := mask_bmod less narrow n
  have same : signed k (BitVec.ofInt 64 n) = signed k (BitVec.ofInt 64 (n.bmod (2 ^ w))) :=
    signed_congr (by rw [field_zero, field_zero, low])
  have number : (BitVec.ofInt w n).toInt = n.bmod (2 ^ w) := BitVec.toInt_ofInt n
  constructor
  · intro exact
    have inside := signed_inRange positive narrow (BitVec.ofInt 64 n)
    have value : ((signed k (BitVec.ofInt 64 n)).setWidth w).toInt =
      (signed k (BitVec.ofInt 64 n)).toInt := by
      rw [← BitVec.ofInt_toInt (x := signed k (BitVec.ofInt 64 n)), setWidth_ofInt wide,
        BitVec.toInt_ofInt, BitVec.ofInt_toInt]
      exact bmod_of_inRange (by omega) (inside.mono less)
    rw [← number, ← exact, value]
    exact inside
  · intro inside
    have long : (BitVec.ofInt 64 (n.bmod (2 ^ w))).toInt = n.bmod (2 ^ w) := by
      obtain ⟨low, high⟩ := inside.mono (m := 63) (by omega)
      exact toInt_long (by omega) (by omega)
    rw [same, signed_of_inRange positive narrow (long.symm ▸ inside), setWidth_ofInt wide, ← number,
      BitVec.ofInt_toInt]

theorem registerBits_bounds (b : Build) : 16 ≤ b.registerBits ∧ b.registerBits ≤ 64 := by
  cases b <;> decide

end exact

/-- The field of a number; `.FILL` has the whole register. -/
def fieldBits (b : Build) (op : Op) : Nat := if op = .FILL then b.registerBits else operandBits op

def immediateForm (op : Op) : Option Operands := if op = .FILL then some .I else numberForm op

/-- The number the simulator reads from the word. -/
def decoded (b : Build) (op : Op) (word : BitVec b.registerBits) : Option (BitVec b.registerBits) :=
  if op = .FILL then some (loadSwap b word)
  else (number (loadedInstr b word)).map (·.setWidth b.registerBits)

/-- A number of the register type whose field is wide enough for it. -/
structure FitsField (b : Build) (op : Op) (n : Int) : Prop where
  register : IsRegister b n
  field : if isUnsigned op then 0 ≤ n ∧ n < 2 ^ fieldBits b op
    else InRange (fieldBits b op) (n.bmod (2 ^ b.registerBits))

section cases
variable {op : Op} {n : Int}

theorem exact_checked {k : Nat} (positive : 0 < k) (narrow : k ≤ 16) (low : -2 ^ 63 ≤ n)
    (high : n < 2 ^ 63)
    {u : BitVec 64} (same : u = Build.bit16.handles64BitLongs (BitVec.ofInt 64 n))
    (inside : InRange k u.toInt) : Exact .bit16 n ((signed k u).setWidth 16) := by
  have value := handles_toInt low high
  rw [← same] at value
  obtain ⟨least, most⟩ := inside.mono (m := 16) narrow
  constructor
  · rw [signed_of_inRange positive (by omega) inside, ← BitVec.ofInt_toInt (x := u),
      setWidth_ofInt (by decide), value]
    split
    · rw [Int.sub_eq_add_neg, BitVec.ofInt_add]
      exact BitVec.add_zero _
    · rfl
  · change -2 ^ 15 ≤ n ∧ n < 2 ^ 16
    split at value <;> omega

theorem exact_signed_iff (sign : isUnsigned op = false) (code : op ≠ .FILL) (n : Int) :
    Exact b n ((signed (operandBits op) (BitVec.ofInt 64 n)).setWidth b.registerBits) ↔
      FitsField b op n := by
  obtain ⟨positive, narrow⟩ := operandBits_bounds op
  obtain ⟨wide, wide'⟩ := registerBits_bounds b
  have exact := signed_exact_iff (k := operandBits op) (w := b.registerBits) positive
    (by omega) wide'
    (by omega) n
  have bits : fieldBits b op = operandBits op := if_neg code
  constructor
  · rintro ⟨congruent, whole⟩
    refine ⟨whole, ?_⟩
    rw [if_neg (by simp [sign]), bits]
    exact exact.mp congruent
  · rintro ⟨register, field⟩
    rw [if_neg (by simp [sign]), bits] at field
    exact ⟨exact.mpr field, register⟩

theorem exact_unsigned_iff (plain : isUnsigned op = true) (low : 0 ≤ n) (high : n < 2 ^ 63) :
    Exact b n ((BitVec.ofInt 64 n &&& mask 64 (operandBits op)).setWidth b.registerBits) ↔
      FitsField b op n := by
  obtain ⟨positive, narrow⟩ := operandBits_bounds op
  obtain ⟨wide, wide'⟩ := registerBits_bounds b
  have bits : fieldBits b op = operandBits op := by
    refine if_neg ?_
    rintro rfl
    cases plain
  have powers (j : Nat) : (2 : Int) ^ j = ((2 ^ j : Nat) : Int) := by simp
  have more : 2 ^ operandBits op ≤ 2 ^ b.registerBits := Nat.pow_le_pow_right (by decide) (by omega)
  have long : (BitVec.ofInt 64 n).toNat = n.toNat := by
    rw [BitVec.toNat_ofInt]
    omega
  have cut : ((BitVec.ofInt 64 n &&& mask 64 (operandBits op)).setWidth b.registerBits).toNat =
      n.toNat % 2 ^ operandBits op := by
    have small : n.toNat % 2 ^ operandBits op < 2 ^ operandBits op :=
      Nat.mod_lt _ (Nat.two_pow_pos _)
    rw [BitVec.toNat_setWidth, and_mask_toNat (by omega), long]
    exact Nat.mod_eq_of_lt (by omega)
  have register (less : n < 2 ^ b.registerBits) :
    (BitVec.ofInt b.registerBits n).toNat = n.toNat := by
    rw [powers] at less
    rw [BitVec.toNat_ofInt, Int.emod_eq_of_lt low less]
  constructor
  · rintro ⟨congruent, whole⟩
    refine ⟨whole, ?_⟩
    rw [if_pos plain, bits, powers]
    have number := congrArg BitVec.toNat congruent
    rw [cut, register whole.2] at number
    have small : n.toNat % 2 ^ operandBits op < 2 ^ operandBits op :=
      Nat.mod_lt _ (Nat.two_pow_pos _)
    exact ⟨low, by omega⟩
  · rintro ⟨whole, field⟩
    rw [if_pos plain, bits, powers] at field
    refine ⟨?_, whole⟩
    apply BitVec.eq_of_toNat_eq
    rw [cut, register whole.2]
    exact Nat.mod_eq_of_lt (by omega)

theorem fill_loaded {v : BitVec 64} (low : -2 ^ 63 ≤ n) (high : n < 2 ^ 63)
    (same : v = b.handles64BitLongs (BitVec.ofInt 64 n)) :
    loadSwap b (b.swap (v &&& b.valueMask)) = BitVec.ofInt _ n := by
  have value := toInt_long low high
  cases b with
  | bit16 =>
    have number := handles_toInt low high
    rw [← same] at number
    have small : (v &&& 0xffff).toNat < 2 ^ 16 := and_mask_lt (k := 16) (by decide)
    have kept : (v &&& 0xffff).setWidth 16 = v.setWidth 16 := by
      apply BitVec.eq_of_toNat_eq
      have cut : (v &&& 0xffff).toNat = v.toNat % 2 ^ 16 := and_mask_toNat (k := 16) (by decide) v
      rw [BitVec.toNat_setWidth, BitVec.toNat_setWidth, cut, Nat.mod_mod]
    change wordSwap16 (Build.swap16 (v &&& 0xffff)) = BitVec.ofInt 16 n
    rw [wordSwap16_small small, kept, ← BitVec.ofInt_toInt (x := v),
      setWidth_ofInt (by decide), number]
    split
    · rw [Int.sub_eq_add_neg, BitVec.ofInt_add]
      exact BitVec.add_zero _
    · rfl
  | bit32 | bit32Wide =>
    have kept : (v &&& 0xffffffff).setWidth 32 = v.setWidth 32 := by
      apply BitVec.eq_of_toNat_eq
      have cut : (v &&& 0xffffffff).toNat = v.toNat % 2 ^ 32 :=
        and_mask_toNat (k := 32) (by decide) v
      rw [BitVec.toNat_setWidth, BitVec.toNat_setWidth, cut, Nat.mod_mod]
    change wordSwap32 (Build.swap32 (v &&& 0xffffffff)) = BitVec.ofInt 32 n
    rw [wordSwap32_swap32, kept, same]
    exact setWidth_ofInt (by decide) n
  | bit64Wide =>
    change v &&& 0xffffffffffffffff = BitVec.ofInt 64 n
    have all : (0xffffffffffffffff : BitVec 64) = BitVec.allOnes 64 := by decide
    rw [all, BitVec.and_allOnes, same]
    rfl

theorem exact_fill_iff (b : Build) (n : Int) :
    Exact b n (BitVec.ofInt _ n) ↔ FitsField b .FILL n := by
  obtain ⟨wide, wide'⟩ := registerBits_bounds b
  have half := two_pow_half (show 0 < b.registerBits by omega)
  have powers (j : Nat) : (2 : Int) ^ j = ((2 ^ j : Nat) : Int) := by simp
  have inside : InRange b.registerBits (n.bmod (2 ^ b.registerBits)) := by
    have least := Int.le_bmod (x := n) (m := 2 ^ b.registerBits) (Nat.two_pow_pos _)
    have most := Int.bmod_lt (x := n) (m := 2 ^ b.registerBits) (Nat.two_pow_pos _)
    rw [InRange, powers]
    omega
  constructor
  · exact fun exact => ⟨exact.whole, inside⟩
  · exact fun fits => ⟨rfl, fits.register⟩

end cases

section statement
variable {stale : Stale} {q q' : AsmState b} {form : Operands} {opstr : List Byte}

theorem orError_clean {otherwise : BitVec 64} {r : Except (List Byte) (BitVec 64)}
    (errors : (orError q otherwise r).2.numErrors = q.numErrors) :
    ∃ v, r = .ok v ∧ (orError q otherwise r).1 = v := by
  cases r with
  | ok v => exact ⟨v, rfl, rfl⟩
  | error m => exact absurd errors (Nat.succ_ne_self _)

theorem stored_read {r : Except (List Byte) (BitVec 64)} {otherwise v : BitVec 64}
    (read : r.map (storeInt otherwise) = .ok v) : ∃ u, r = .ok u ∧ v = storeInt otherwise u := by
  cases r with
  | error m => cases read
  | ok u =>
    cases read
    exact ⟨u, rfl, rfl⟩

theorem number_exact_iff (stale : Stale) (opstr : List Byte) (formed : numberForm q.op = some form)
    (errors : (readOperand stale q form opstr).2.numErrors = q.numErrors) :
    ∃ n, written (operandText form opstr) = some n ∧
      (Exact b n ((fieldValue q.op (readOperand stale q form opstr).1).setWidth b.registerBits) ↔
        b = .bit16 ∨ FitsField b q.op n) := by
  obtain ⟨positive, narrow⟩ := operandBits_bounds q.op
  have code : q.op ≠ .FILL := by
    intro fill
    rw [fill] at formed
    cases formed
  have number : readOperand stale q form opstr =
      if isUnsigned q.op then
        readUnsignedInto q (operandText form opstr) (operandBits q.op) (stale q.pass q.lineNum)
      else readSignedInto q (operandText form opstr) (operandBits q.op)
        (stale q.pass q.lineNum) := by
    cases op : q.op <;> rw [op] at formed <;> cases formed <;> simp only [readOperand, op]
  rw [number] at errors ⊢
  cases plain : isUnsigned q.op with
  | true =>
    simp only [plain, if_true] at errors ⊢
    obtain ⟨v, read, value⟩ := orError_clean errors
    obtain ⟨u, raw, rfl⟩ := stored_read read
    obtain ⟨n, text, low, high, same, sign, check⟩ := readUnsignedVal_ok raw
    refine ⟨n, text, ?_⟩
    have cut : fieldValue q.op (storeInt (stale q.pass q.lineNum) u) = u &&& mask 64
      (operandBits q.op) := by
      rw [fieldValue_unsigned plain, storeInt_low (by omega)]
    change Exact b n ((fieldValue q.op (orError _ _ _).1).setWidth _) ↔ _
    rw [value, cut]
    by_cases build : b = .bit16
    · subst build
      -- the check leaves only numbers that are their own 16 bits
      have number := handles_toInt low high
      rw [← same] at number
      have small : u.toInt < 2 ^ operandBits q.op := by
        simpa [Build.checkOutOfRangeUnsigned] using check
      have less : (2 : Int) ^ operandBits q.op ≤ 2 ^ 12 := by
        exact_mod_cast Nat.pow_le_pow_right (n := 2) (by decide) (by omega : operandBits q.op ≤ 12)
      have whole : u.toInt = n := by
        split at number <;> omega
      have long : u = BitVec.ofInt 64 n := by rw [← whole, BitVec.ofInt_toInt]
      have fits : FitsField .bit16 q.op n := by
        refine ⟨?_, ?_⟩
        · change -2 ^ 15 ≤ n ∧ n < 2 ^ 16
          omega
        · rw [if_pos plain, fieldBits, if_neg code]
          omega
      rw [long]
      exact ⟨fun _ => .inl rfl, fun _ => (exact_unsigned_iff plain (by omega) high).mpr fits⟩
    · rw [handles_other build] at same
      have value := toInt_long low high
      rw [same, value] at sign
      rw [same, exact_unsigned_iff plain sign high]
      simp [build]
  | false =>
    simp only [plain, Bool.false_eq_true, if_false] at errors ⊢
    obtain ⟨v, read, value⟩ := orError_clean errors
    obtain ⟨u, raw, rfl⟩ := stored_read read
    obtain ⟨n, w, text, low, high, same, check, field, -⟩ := readVal_ok raw
    refine ⟨n, text, ?_⟩
    have cut : fieldValue q.op (storeInt (stale q.pass q.lineNum) u) = signed
      (operandBits q.op) w := by
      rw [fieldValue_signed plain]
      apply signed_congr
      rw [field_zero, field_zero, storeInt_low (by omega), field]
    change Exact b n ((fieldValue q.op (orError _ _ _).1).setWidth _) ↔ _
    rw [value, cut]
    by_cases build : b = .bit16
    · subst build
      have inside := (out_of_range_iff _ _).mp check
      exact ⟨fun _ => .inl rfl, fun _ => exact_checked positive (by omega) low high same inside⟩
    · rw [handles_other build] at same
      rw [same, exact_signed_iff plain code]
      simp [build]

theorem fill_exact_iff (op : q.op = .FILL) (started : q.sawOrig ≠ 0) (second : q.pass = .second)
    (ok : generateInstruction stale q .I opstr = .ok q') (errors : q'.numErrors = q.numErrors) :
    ∃ n word, written (operand1 opstr) = some n ∧ q'.objout = q.objout ++ [word] ∧
      (Exact b n (loadSwap b word) ↔ b = .bit16 ∨ FitsField b .FILL n) := by
  rw [generate_admitted (by rw [op]; decide) (by rw [op]; decide) started] at ok
  simp only [generateOp, op, if_true] at ok
  obtain ⟨t, wrote, rfl⟩ := map_ok ok
  have w := writeValue_ok wrote
  have clean : (readLoadInto q (operand1 opstr) (stale q.pass q.lineNum)).2.numErrors =
    q.numErrors :=
    w.errors.symm.trans errors
  obtain ⟨v, read, value⟩ := orError_clean clean
  obtain ⟨n, u, text, low, high, same, check, -, full⟩ := readVal_ok read
  refine ⟨n, b.swap (v &&& b.valueMask), text, ?_, ?_⟩
  · have objout := w.objout
    have only : OnlyError q (readLoadInto q (operand1 opstr) (stale q.pass q.lineNum)).2 :=
      orError_only ..
    rw [only.unchanged clean, if_pos second] at objout
    rw [← value]
    exact objout
  · rw [fill_loaded low high ((full rfl).trans same), exact_fill_iff]
    constructor
    · exact fun fits => .inr fits
    · rintro (build | fits)
      · subst build
        have number := handles_toInt low high
        rw [← same] at number
        obtain ⟨least, most⟩ := (out_of_range_iff _ _).mp check
        have bounds : -2 ^ 15 ≤ u.toInt ∧ u.toInt < 2 ^ 15 := ⟨least, most⟩
        refine (exact_fill_iff .bit16 n).mp ⟨rfl, ?_⟩
        change -2 ^ 15 ≤ n ∧ n < 2 ^ 16
        split at number <;> omega
      · exact fits

end statement

/-- For every build and every file it assembles: the simulator reads each number back
exactly as it was written, modulo the register and with nothing cut off, if and only if the
build is the 16-bit one or the number is a register whose field is wide enough for it. -/
theorem immediate_exact_iff (b : Build) (stale : Stale) (text : List Byte) (s₂ : AsmState b)
    (ok : assemble stale text = .ok s₂) :
    ∃ s₁ : AsmState b, firstPass stale text = .ok s₁ ∧
      ∀ before l after form, yylex text = before ++ l :: after → l.token = .generate form →
        ∃ q q' : AsmState b, runPass stale (startPass .second s₁) before = .ok q ∧
          act stale q l = .ok q' ∧
          (immediateForm q.op = some form → ∃ n word d,
            written (operandText form (buffer l)) = some n ∧ q'.objout = q.objout ++ [word] ∧
            decoded b q.op word = some d ∧
            (Exact b n d ↔ b = .bit16 ∨ FitsField b q.op n)) := by
  obtain ⟨s₁, accepted⟩ := accepted_of_assemble ok
  refine ⟨s₁, accepted.first, ?_⟩
  intro before l after form lexemes token
  have inside : l ∈ yylex text := by simp [lexemes]
  obtain ⟨p, p', q, q', visits⟩ := second_visits accepted.first accepted.clean lexemes
  obtain ⟨_, _, r, r', stands⟩ := accepted_stands accepted lexemes
  have errors : q'.numErrors = q.numErrors := by
    cases visits.reached'.symm.trans stands.reached'
    cases visits.acted'.symm.trans stands.acted'
    exact stands.errors'
  refine ⟨q, q', visits.reached', visits.acted', ?_⟩
  intro formed
  by_cases op : q.op = .FILL
  · rw [immediateForm, if_pos op] at formed
    cases formed
    have acted := visits.acted'
    simp only [act, token] at acted
    have started := visits.started token (by rw [op]; decide)
    obtain ⟨n, word, number, objout, exact⟩ :=
      fill_exact_iff op started visits.second.pass acted errors
    refine ⟨n, word, loadSwap b word, number, objout, ?_, op ▸ exact⟩
    rw [decoded, if_pos op]
  · rw [immediateForm, if_neg op] at formed
    obtain ⟨counted, word, objout, made⟩ := field_emitted inside visits token (.inl formed)
    obtain ⟨n, number, exact⟩ :=
      number_exact_iff stale (buffer l) formed (counted.symm.trans errors)
    refine ⟨n, word, _, number, objout, ?_, exact⟩
    rw [decoded, if_neg op, number_encoded made]
    rfl

def immediateSource : List Byte := bytes ".ORIG x3000\nADD R1,R2,#-5\n.END\n"

/-- The operation the second pass is at, behind the first lexemes of a file. -/
def operationAt (b : Build) (text : List Byte) (n : Nat) : Option Op :=
  ((firstPass (b := b) (fun _ _ => 0) text).bind fun s₁ =>
    runPass (fun _ _ => 0) (startPass .second s₁) ((yylex text).take n)).toOption.map AsmState.op

theorem operationAt_eq {text : List Byte} {s₁ q : AsmState b} {n : Nat} {op : Op}
    (found : operationAt b text n = some op) (first : firstPass (fun _ _ => 0) text = .ok s₁)
    (reached : runPass (fun _ _ => 0) (startPass .second s₁) ((yylex text).take n) = .ok q) :
    q.op = op := by
  simp only [operationAt, first, Except.bind, reached, Except.toOption, Option.map_some,
    Option.some.injEq] at found
  exact found

theorem immediate_exact_add :
    ∃ (s₁ q q' : AsmState .bit16) (l : Lexeme Byte Action)
      (word d : BitVec (Build.registerBits .bit16)),
      firstPass (fun _ _ => 0) immediateSource = .ok s₁ ∧ (yylex immediateSource)[3]? = some l ∧
      runPass (fun _ _ => 0) (startPass .second s₁) ((yylex immediateSource).take 3) = .ok q ∧
      act (fun _ _ => 0) q l = .ok q' ∧ q'.objout = q.objout ++ [word] ∧
      decoded .bit16 .ADD word = some d ∧ Exact .bit16 (-5) d := by
  have assembled : (assemble (b := .bit16) (fun _ _ => 0) immediateSource).isOk := by decide +kernel
  obtain ⟨s₂, ok⟩ := eq_ok_of_isOk assembled
  obtain ⟨s₁, first, each⟩ := immediate_exact_iff .bit16 (fun _ _ => 0) immediateSource s₂ ok
  have found : (yylex immediateSource)[3]? =
      some ⟨.generate .RRI, bytes " R1,R2,#-5\n", bytes ".END\n"⟩ := by decide +kernel
  obtain ⟨q, q', reached, acted, number⟩ := each _ _ _ _ (lexeme_at found) rfl
  have op : q.op = .ADD := operationAt_eq (n := 3) (by decide +kernel) first reached
  rw [op] at number
  obtain ⟨n, word, d, text, objout, value, exact⟩ := number rfl
  have read :
      written (operandText .RRI (buffer ⟨.generate .RRI, bytes " R1,R2,#-5\n", bytes ".END\n"⟩)) =
      some (-5) := by decide +kernel
  cases read.symm.trans text
  exact ⟨s₁, q, q', _, word, d, first, found, reached, acted, objout, value, exact.mpr (.inl rfl)⟩

def truncatedSource : List Byte := bytes ".ORIG x3000\nADD R0,R0,#100\n.END\n"

theorem immediate_truncated :
    (assemble (b := .bit32) (fun _ _ => 0) truncatedSource).output =
        some ([0x00300000, 0x24100000], [(0x3000, 0x1024)]) ∧
      operationAt .bit32 truncatedSource 3 = some .ADD ∧
      (yylex truncatedSource)[3]?.bind (fun l => written (operandText .RRI (buffer l))) = some 100 ∧
      decoded .bit32 .ADD 0x24100000 = some 4 ∧ ¬ Exact .bit32 100 4 := by
  have different : ¬ Exact .bit32 100 4 := by
    rintro ⟨congruent, -⟩
    exact absurd congruent (by decide)
  refine ⟨?_, ?_, ?_, ?_, different⟩ <;> decide +kernel

end LC3Tools.Assembler
