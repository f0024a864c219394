import Mathlib.Data.BitVec

/-! Words as bytes in memory, the least significant byte first, and arrays of words. -/
namespace LC3Tools.LittleEndian

variable {w : Nat}

/-- The `n` low bytes of a word. -/
def toBytes (n : Nat) (v : BitVec w) : List (BitVec 8) :=
  match n with
  | 0 => []
  | n + 1 => v.setWidth 8 :: toBytes n (v >>> 8)

def ofBytes (w : Nat) : List (BitVec 8) → BitVec w
  | [] => 0
  | b :: bs => (ofBytes w bs <<< 8) ||| b.setWidth w

@[simp] theorem length_toBytes (n : Nat) (v : BitVec w) : (toBytes n v).length = n := by
  induction n generalizing v with
  | zero => rfl
  | succ n ih => simp [toBytes, ih]

theorem ofBytes_toBytes (n : Nat) (v : BitVec w) (fits : v.toNat < 2 ^ (8 * n)) :
    ofBytes w (toBytes n v) = v := by
  induction n generalizing v with
  | zero =>
    apply BitVec.eq_of_toNat_eq
    simp only [toBytes, ofBytes]
    have : v.toNat = 0 := by simpa using fits
    simp [this]
  | succ n ih =>
    have shorter : (v >>> 8).toNat < 2 ^ (8 * n) := by
      rw [BitVec.toNat_ushiftRight, Nat.shiftRight_eq_div_pow]
      refine Nat.div_lt_of_lt_mul ?_
      rw [← Nat.pow_add]
      exact Nat.lt_of_lt_of_eq fits (congrArg (2 ^ ·) (by omega))
    simp only [toBytes, ofBytes, ih _ shorter]
    apply BitVec.eq_of_getLsbD_eq
    intro i inside
    rcases Nat.lt_or_ge i 8 with low | high
    · simp [low, inside]
    · have back : 8 + (i - 8) = i := by omega
      simp [inside, Nat.not_lt_of_ge high, back]

/-- An array of words, each in `n` bytes. -/
def ofWords (n : Nat) (words : List (BitVec w)) : List (BitVec 8) := words.flatMap (toBytes n)

/-- The word at an index of an array, none behind its end. -/
def wordAt (w n : Nat) (data : List (BitVec 8)) (i : Nat) : Option (BitVec w) :=
  if (i + 1) * n ≤ data.length then some (ofBytes w ((data.drop (i * n)).take n)) else none

theorem length_ofWords (n : Nat) (words : List (BitVec w)) :
    (ofWords n words).length = words.length * n := by
  induction words with
  | nil => simp [ofWords]
  | cons v vs ih =>
    have split : ofWords n (v :: vs) = toBytes n v ++ ofWords n vs := rfl
    rw [split, List.length_append, length_toBytes, ih, List.length_cons, Nat.succ_mul, Nat.add_comm]

theorem wordAt_ofWords {n : Nat} (whole : 8 * n = w) (words : List (BitVec w)) (i : Nat)
    (inside : i < words.length) : wordAt w n (ofWords n words) i = some words[i] := by
  induction words generalizing i with
  | nil => cases inside
  | cons v vs ih =>
    have room : (i + 1) * n ≤ (ofWords n (v :: vs)).length := by
      rw [length_ofWords]
      exact Nat.mul_le_mul_right n inside
    have split : ofWords n (v :: vs) = toBytes n v ++ ofWords n vs := rfl
    rw [wordAt, if_pos room, split]
    cases i with
    | zero =>
      have front : (toBytes n v ++ ofWords n vs).take n = toBytes n v :=
        List.take_left' (length_toBytes n v)
      have fits : v.toNat < 2 ^ (8 * n) := whole ▸ v.isLt
      simp only [Nat.zero_mul, List.drop_zero, front, List.getElem_cons_zero,
        ofBytes_toBytes n v fits]
    | succ i =>
      have short : i < vs.length := Nat.lt_of_succ_lt_succ inside
      have rest : (i + 1) * n ≤ (ofWords n vs).length := by
        rw [length_ofWords]
        exact Nat.mul_le_mul_right n short
      have tail := ih i short
      rw [wordAt, if_pos rest] at tail
      have skip : (toBytes n v ++ ofWords n vs).drop ((i + 1) * n) =
          (ofWords n vs).drop (i * n) := by
        have apart : (i + 1) * n = (toBytes n v).length + i * n := by
          rw [length_toBytes, Nat.succ_mul, Nat.add_comm]
        rw [apart, List.drop_append, List.drop_eq_nil_of_le (Nat.le_add_right _ _)]
        simp
      rw [skip]
      simpa using tail

end LC3Tools.LittleEndian
