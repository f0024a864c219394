import Mathlib.Data.BitVec

/-! Fields of a word: bits `p` to `p + k` as a number, and the low `k` bits as a number
with a sign. A word is put together from shifted fields by `|||`; each field comes back
out as long as the fields lie side by side. -/
namespace LC3Tools.BitFields

/-! A literal of `Fin` for a register, or for a number of four bits, carries one of these. -/

instance (priority := 10000) neZero_eight : NeZero 8 := ⟨by decide⟩
instance (priority := 10000) neZero_fifteen : NeZero 15 := ⟨by decide⟩
instance (priority := 10000) neZero_sixteen : NeZero 16 := ⟨by decide⟩

variable {w : Nat}

/-- The `k` low bits. -/
def mask (w k : Nat) : BitVec w := (1#w <<< k) - 1#w

def field (p k : Nat) (x : BitVec w) : BitVec w := (x >>> p) &&& mask w k

/-- The `k` low bits, the highest of them as the sign. -/
def signed (k : Nat) (x : BitVec w) : BitVec w :=
  ((x &&& mask w k) ^^^ (1#w <<< (k - 1))) - (1#w <<< (k - 1))

section
variable {k m p q : Nat} {x y v : BitVec w}

theorem one_shift_toNat (narrow : k < w) : (1#w <<< k).toNat = 2 ^ k := by
  have bound : 2 ^ k < 2 ^ w := Nat.pow_lt_pow_right (by decide) narrow
  have one : 1 < 2 ^ w := Nat.one_lt_two_pow (by omega)
  rw [BitVec.toNat_shiftLeft, BitVec.toNat_ofNat, Nat.mod_eq_of_lt one, Nat.shiftLeft_eq,
    Nat.one_mul,
    Nat.mod_eq_of_lt bound]

theorem mask_toNat (narrow : k < w) : (mask w k).toNat = 2 ^ k - 1 := by
  have bound : 2 ^ k < 2 ^ w := Nat.pow_lt_pow_right (by decide) narrow
  have one : 1 < 2 ^ w := Nat.one_lt_two_pow (by omega)
  have positive : 0 < 2 ^ k := Nat.two_pow_pos k
  rw [mask, BitVec.toNat_sub, one_shift_toNat narrow, BitVec.toNat_ofNat, Nat.mod_eq_of_lt one]
  have same : 2 ^ w - 1 + 2 ^ k = 2 ^ w + (2 ^ k - 1) := by omega
  rw [same, Nat.add_mod_left, Nat.mod_eq_of_lt (by omega)]

theorem getLsbD_mask (narrow : k < w) (i : Nat) : (mask w k).getLsbD i = decide (i < k) := by
  rw [BitVec.getLsbD, mask_toNat narrow, Nat.testBit_two_pow_sub_one]

theorem and_mask_toNat (narrow : k < w) (x : BitVec w) :
    (x &&& mask w k).toNat = x.toNat % 2 ^ k := by
  rw [BitVec.toNat_and, mask_toNat narrow, Nat.and_two_pow_sub_one_eq_mod]

theorem and_mask_eq_self (narrow : k < w) : x &&& mask w k = x ↔ x.toNat < 2 ^ k := by
  constructor
  · intro same
    rw [← same, and_mask_toNat narrow]
    exact Nat.mod_lt _ (Nat.two_pow_pos k)
  · intro small
    apply BitVec.eq_of_toNat_eq
    rw [and_mask_toNat narrow, Nat.mod_eq_of_lt small]

theorem and_mask_lt (narrow : k < w) : (x &&& mask w k).toNat < 2 ^ k := by
  rw [and_mask_toNat narrow]
  exact Nat.mod_lt _ (Nat.two_pow_pos k)

theorem field_lt (narrow : k < w) : (field p k x).toNat < 2 ^ k := and_mask_lt narrow

theorem getLsbD_field (narrow : k < w) (i : Nat) :
    (field p k x).getLsbD i = (x.getLsbD (p + i) && decide (i < k)) := by
  rw [field, BitVec.getLsbD_and, BitVec.getLsbD_ushiftRight, getLsbD_mask narrow]

theorem field_zero : field 0 k x = x &&& mask w k := by
  rw [field, BitVec.ushiftRight_zero]

theorem field_or : field p k (x ||| y) = field p k x ||| field p k y := by
  apply BitVec.eq_of_getLsbD_eq
  intro i bound
  simp [field, Bool.and_or_distrib_right]

theorem field_shiftLeft (small : v.toNat < 2 ^ k) (inside : p + k ≤ w) (narrow : k < w) :
    field p k (v <<< p) = v := by
  apply BitVec.eq_of_getLsbD_eq
  intro i bound
  rw [getLsbD_field narrow, BitVec.getLsbD_shiftLeft, Nat.add_sub_cancel_left]
  by_cases low : i < k
  · have here : p + i < w := by omega
    have behind : ¬ p + i < p := by omega
    simp [low, here, behind]
  · have none : v.getLsbD i = false := by
      apply Nat.testBit_lt_two_pow
      exact Nat.lt_of_lt_of_le small (Nat.pow_le_pow_right (by decide) (by omega))
    simp [low, none]

theorem field_above (narrow : k < w) (above : p + k ≤ q) : field p k (v <<< q) = 0 := by
  apply BitVec.eq_of_getLsbD_eq
  intro i bound
  rw [getLsbD_field narrow, BitVec.getLsbD_shiftLeft]
  by_cases low : i < k
  · have before : p + i < q := by omega
    simp [before]
  · simp [low]

theorem field_below (narrow : k < w) (small : v.toNat < 2 ^ m) (below : q + m ≤ p) :
    field p k (v <<< q) = 0 := by
  apply BitVec.eq_of_getLsbD_eq
  intro i bound
  have none : v.getLsbD (p + i - q) = false := by
    apply Nat.testBit_lt_two_pow
    exact Nat.lt_of_lt_of_le small (Nat.pow_le_pow_right (by decide) (by omega))
  simp [getLsbD_field narrow, BitVec.getLsbD_shiftLeft, none]

theorem field_of_small (narrow : k < w) (small : v.toNat < 2 ^ m) (below : m ≤ p) :
    field p k v = 0 := by
  have shifted : field p k (v <<< 0) = 0 := field_below narrow small (by omega)
  rwa [BitVec.shiftLeft_zero] at shifted

theorem field_zero_of_small (narrow : k < w) (small : v.toNat < 2 ^ k) : field 0 k v = v := by
  rw [field_zero, (and_mask_eq_self narrow).mpr small]

theorem field_zero_field (narrow : m < w) (less : k ≤ m) :
    field 0 k (x &&& mask w m) = field 0 k x := by
  have narrow' : k < w := by omega
  apply BitVec.eq_of_toNat_eq
  rw [field_zero, field_zero, and_mask_toNat narrow', and_mask_toNat narrow, and_mask_toNat narrow',
    Nat.mod_mod_of_dvd _ (Nat.pow_dvd_pow 2 less)]

theorem and_bit_eq_zero (inside : p < w) : x &&& (1#w <<< p) = 0 ↔ x.getLsbD p = false := by
  constructor
  · intro none
    have here := congrArg (BitVec.getLsbD · p) none
    simpa [BitVec.getLsbD_shiftLeft, inside] using here
  · intro none
    apply BitVec.eq_of_getLsbD_eq
    intro i bound
    rw [BitVec.getLsbD_and, BitVec.getLsbD_shiftLeft]
    by_cases same : i = p
    · simp [same, none]
    · by_cases before : i < p
      · simp [before]
      · have other : i - p ≠ 0 := by omega
        simp [BitVec.getLsbD_one, other]

theorem and_not_mask (narrow : k < w) : x &&& ~~~mask w k = 0 ↔ x.toNat < 2 ^ k := by
  rw [← and_mask_eq_self narrow]
  constructor
  · intro none
    apply BitVec.eq_of_getLsbD_eq
    intro i bound
    have outside := congrArg (BitVec.getLsbD · i) none
    simp only [BitVec.getLsbD_and, BitVec.getLsbD_not, getLsbD_mask narrow, bound, decide_true,
      Bool.true_and] at outside ⊢
    by_cases low : i < k
    · simp [low]
    · simpa [low] using outside
  · intro whole
    rw [← whole, BitVec.and_assoc]
    simp

theorem and_bit_field (inside : p < w) (narrow : 1 < w) :
    x &&& (1#w <<< p) = 0 ↔ field p 1 x = 0 := by
  have bit := getLsbD_field (p := p) (x := x) narrow 0
  rw [Nat.add_zero] at bit
  rw [and_bit_eq_zero inside]
  constructor
  · intro none
    apply BitVec.eq_of_getLsbD_eq
    intro i bound
    rw [getLsbD_field narrow]
    by_cases low : i < 1
    · have zero : i = 0 := by omega
      simp [zero, none]
    · simp [low]
  · intro none
    rw [none] at bit
    simpa using bit.symm

end

section join
variable {k m p q : Nat} {v rest : BitVec w}

theorem join_lt (small : v.toNat < 2 ^ k) (below : rest.toNat < 2 ^ q) :
    (v <<< q ||| rest).toNat < 2 ^ (q + k) := by
  rw [BitVec.toNat_or]
  apply Nat.or_lt_two_pow
  · rw [BitVec.toNat_shiftLeft, Nat.shiftLeft_eq, Nat.pow_add, Nat.mul_comm (2 ^ q)]
    exact Nat.lt_of_le_of_lt (Nat.mod_le ..) (Nat.mul_lt_mul_of_pos_right small (Nat.two_pow_pos q))
  · exact Nat.lt_of_lt_of_le below (Nat.pow_le_pow_right (by decide) (Nat.le_add_right ..))

theorem field_join (small : v.toNat < 2 ^ k) (below : rest.toNat < 2 ^ q) (inside : q + k ≤ w)
    (narrow : k < w) : field q k (v <<< q ||| rest) = v := by
  rw [field_or, field_shiftLeft small inside narrow, field_of_small narrow below (Nat.le_refl q)]
  exact BitVec.or_zero

theorem field_join_below (narrow : k < w) (below : p + k ≤ q) :
    field p k (v <<< q ||| rest) = field p k rest := by
  rw [field_or, field_above narrow below]
  exact BitVec.zero_or

end join

section signed
variable {k : Nat} {x y v : BitVec w}

theorem two_pow_half (positive : 0 < k) : 2 ^ k = 2 ^ (k - 1) + 2 ^ (k - 1) := by
  have more : k = k - 1 + 1 := by omega
  conv_lhs => rw [more, Nat.pow_succ]
  omega

theorem xor_top {n j : Nat} (small : n < 2 ^ (j + 1)) :
    n ^^^ 2 ^ j = if n < 2 ^ j then n + 2 ^ j else n - 2 ^ j := by
  have set {r : Nat} (low : r < 2 ^ j) : r ^^^ 2 ^ j = r + 2 ^ j := by
    have sum := Nat.two_pow_add_eq_or_of_lt low 1
    rw [Nat.mul_one] at sum
    rw [Nat.add_comm, sum]
    apply Nat.eq_of_testBit_eq
    intro i
    rw [Nat.testBit_xor, Nat.testBit_or, Nat.testBit_two_pow]
    by_cases same : j = i
    · subst same
      simp [Nat.testBit_lt_two_pow low]
    · simp [same]
  split
  · rename_i low
    exact set low
  · rename_i high
    have rest : n - 2 ^ j < 2 ^ j := by
      rw [Nat.pow_succ] at small
      omega
    have whole : n = (n - 2 ^ j) ^^^ 2 ^ j := by
      rw [set rest]
      omega
    rw [whole, Nat.xor_assoc, Nat.xor_self, Nat.xor_zero, ← whole]

theorem signed_congr (same : field 0 k x = field 0 k y) : signed k x = signed k y := by
  rw [field_zero, field_zero] at same
  rw [signed, signed, same]

theorem signed_toInt (positive : 0 < k) (narrow : k < w) (x : BitVec w) :
    (signed k x).toInt = if x.toNat % 2 ^ k < 2 ^ (k - 1) then (x.toNat % 2 ^ k : Int)
      else (x.toNat % 2 ^ k : Int) - 2 ^ k := by
  have small : x.toNat % 2 ^ k < 2 ^ k := Nat.mod_lt _ (Nat.two_pow_pos k)
  have half := two_pow_half positive
  have double : 2 ^ k + 2 ^ k ≤ 2 ^ w := by
    have more : 2 ^ (k + 1) ≤ 2 ^ w := Nat.pow_le_pow_right (by decide) narrow
    rw [Nat.pow_succ] at more
    omega
  have top : (1#w <<< (k - 1)).toNat = 2 ^ (k - 1) := one_shift_toNat (by omega)
  have flipped : ((x &&& mask w k) ^^^ (1#w <<< (k - 1))).toNat =
      if x.toNat % 2 ^ k < 2 ^ (k - 1) then x.toNat % 2 ^ k + 2 ^ (k - 1)
        else x.toNat % 2 ^ k - 2 ^ (k - 1) := by
    rw [BitVec.toNat_xor, and_mask_toNat narrow, top, xor_top]
    rw [Nat.sub_add_cancel positive]
    exact small
  have less : ((x &&& mask w k) ^^^ (1#w <<< (k - 1))).toNat < 2 ^ k := by
    rw [flipped]
    split <;> omega
  have plain : ((x &&& mask w k) ^^^ (1#w <<< (k - 1))).toInt =
      ((x &&& mask w k) ^^^ (1#w <<< (k - 1))).toNat := BitVec.toInt_eq_toNat_of_lt (by omega)
  have plain' : (1#w <<< (k - 1)).toInt = (1#w <<< (k - 1)).toNat :=
    BitVec.toInt_eq_toNat_of_lt (by omega)
  have powers : (2 : Int) ^ k = ((2 ^ k : Nat) : Int) := by simp
  have modulus : (x.toNat : Int) % ((2 ^ k : Nat) : Int) = ((x.toNat % 2 ^ k : Nat) : Int) := by
    simp
  rw [signed, BitVec.toInt_sub, plain, plain', flipped, top, powers, modulus]
  rw [Int.bmod_eq_of_le] <;> split <;> omega

/-- The range of a field with a sign. -/
def InRange (k : Nat) (n : Int) : Prop := -2 ^ (k - 1) ≤ n ∧ n < 2 ^ (k - 1)

instance (k : Nat) (n : Int) : Decidable (InRange k n) := inferInstanceAs (Decidable (_ ∧ _))

theorem InRange.mono {k m : Nat} {n : Int} (inside : InRange k n) (less : k ≤ m) : InRange m n := by
  have powers : 2 ^ (k - 1) ≤ 2 ^ (m - 1) := Nat.pow_le_pow_right (by decide) (by omega)
  have ints : (2 : Int) ^ (k - 1) ≤ 2 ^ (m - 1) := by exact_mod_cast powers
  obtain ⟨low, high⟩ := inside
  exact ⟨by omega, by omega⟩

theorem signed_inRange (positive : 0 < k) (narrow : k < w) (x : BitVec w) :
    InRange k (signed k x).toInt := by
  have half := two_pow_half positive
  have small : x.toNat % 2 ^ k < 2 ^ k := Nat.mod_lt _ (Nat.two_pow_pos k)
  have powers (j : Nat) : (2 : Int) ^ j = ((2 ^ j : Nat) : Int) := by simp
  have modulus : (x.toNat : Int) % ((2 ^ k : Nat) : Int) = ((x.toNat % 2 ^ k : Nat) : Int) := by
    simp
  rw [signed_toInt positive narrow, powers k, modulus, InRange, powers (k - 1)]
  split <;> constructor <;> omega

theorem signed_of_inRange (positive : 0 < k) (narrow : k < w) (inside : InRange k v.toInt) :
    signed k v = v := by
  obtain ⟨low, high⟩ := inside
  have half := two_pow_half positive
  have powers (j : Nat) : (2 : Int) ^ j = ((2 ^ j : Nat) : Int) := by simp
  have modulus : (v.toNat : Int) % ((2 ^ k : Nat) : Int) = ((v.toNat % 2 ^ k : Nat) : Int) := by
    simp
  have residue : ((v.toNat % 2 ^ k : Nat) : Int) = v.toInt % ((2 ^ k : Nat) : Int) := by
    obtain ⟨c, whole⟩ : ((2 ^ k : Nat) : Int) ∣ ((2 ^ w : Nat) : Int) :=
      Int.natCast_dvd_natCast.mpr (Nat.pow_dvd_pow 2 (by omega))
    rw [BitVec.toInt_eq_toNat_cond]
    split
    · exact modulus.symm
    · rw [whole, Int.sub_mul_emod_self_left]
      exact modulus.symm
  rw [powers (k - 1)] at low high
  apply BitVec.eq_of_toInt_eq
  rw [signed_toInt positive narrow, powers k, modulus]
  have bound : v.toNat % 2 ^ k < 2 ^ k := Nat.mod_lt _ (Nat.two_pow_pos k)
  by_cases sign : 0 ≤ v.toInt
  · have same : v.toInt % ((2 ^ k : Nat) : Int) = v.toInt := Int.emod_eq_of_lt sign (by omega)
    rw [same] at residue
    rw [if_pos (by omega), residue]
  · have same : v.toInt % ((2 ^ k : Nat) : Int) = v.toInt + ((2 ^ k : Nat) : Int) := by
      rw [← Int.add_emod_right]
      exact Int.emod_eq_of_lt (by omega) (by omega)
    rw [same] at residue
    rw [if_neg (by omega), residue]
    omega

end signed

end LC3Tools.BitFields
