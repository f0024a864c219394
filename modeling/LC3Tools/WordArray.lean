import Mathlib.Data.BitVec

/-! Words that are stored one after the other, from an address on, in a memory whose
addresses wrap around. -/
namespace LC3Tools

/-- Memory with the first n words of a sequence stored from an address on. -/
def storedFrom {w : Nat} (memory : BitVec w → BitVec w) (word : Nat → BitVec w) (address : BitVec w)
    (n : Nat) :
    BitVec w → BitVec w :=
  fun a => if (a - address).toNat < n then word (a - address).toNat else memory a

section
variable {w : Nat} {memory : BitVec w → BitVec w} {word : Nat → BitVec w} {address : BitVec w}

theorem offset_from {i : Nat} (small : i < 2 ^ w) :
    (address + BitVec.ofNat w i - address).toNat = i := by
  rw [BitVec.add_comm, BitVec.add_sub_cancel, BitVec.toNat_ofNat, Nat.mod_eq_of_lt small]

theorem storedFrom_at {i n : Nat} (less : i < n) (small : i < 2 ^ w) :
    storedFrom memory word address n (address + BitVec.ofNat w i) = word i := by
  rw [storedFrom, offset_from small, if_pos less]

theorem storedFrom_outside {a : BitVec w} {n : Nat} (outside : ¬ (a - address).toNat < n) :
    storedFrom memory word address n a = memory a := if_neg outside

theorem storedFrom_behind {i n : Nat} (behind : n ≤ i) (small : i < 2 ^ w) :
    storedFrom memory word address n (address + BitVec.ofNat w i) = memory
      (address + BitVec.ofNat w i) := by
  rw [storedFrom, offset_from small, if_neg (Nat.not_lt_of_ge behind)]

theorem storedFrom_succ {n : Nat} (small : n < 2 ^ w) :
    (fun a => if a = address + BitVec.ofNat w n then word n
      else storedFrom memory word address n a) =
      storedFrom memory word address (n + 1) := by
  funext a
  by_cases last : a = address + BitVec.ofNat w n
  · rw [if_pos last, last, storedFrom_at (Nat.lt_succ_self n) small]
  · have other : (a - address).toNat ≠ n := by
      rintro rfl
      apply last
      rw [BitVec.ofNat_toNat, BitVec.setWidth_eq, BitVec.add_comm, BitVec.sub_add_cancel]
    rw [if_neg last]
    unfold storedFrom
    by_cases inside : (a - address).toNat < n
    · rw [if_pos inside, if_pos (by omega)]
    · rw [if_neg inside, if_neg (by omega)]

theorem storedFrom_same_iff {n : Nat} (small : n ≤ 2 ^ w) :
    storedFrom memory word address n = memory ↔
      ∀ i < n, memory (address + BitVec.ofNat w i) = word i := by
  constructor
  · intro same i less
    rw [← same, storedFrom_at less (by omega)]
  · intro there
    funext a
    unfold storedFrom
    split
    · rename_i inside
      have back := there _ inside
      rw [BitVec.ofNat_toNat, BitVec.setWidth_eq, BitVec.add_comm, BitVec.sub_add_cancel] at back
      exact back.symm
    · rfl

end

end LC3Tools
