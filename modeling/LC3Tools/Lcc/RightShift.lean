import LC3Tools.Lcc.Logic
import LC3Tools.Lcc.Divide
import LC3Tools.Lcc.Simplify

/-! `>>` between registers, which divides by a power of two, and the `>>` that `simplify`
folds. -/
namespace LC3Tools.Emit

/-- The case RSH+I. Its own two labels are drawn before those of the division. -/
def rsh (label : Nat) (x y z : Fin 8) : List Line :=
  push z ++ [.andimm x x 0, .addimm x x 1] ++ doubling (label + 1) label x z ++ [.addimm z x 0] ++
    div (label + 2) x y z ++ pop z

theorem power_nonzero {k : Nat} (small : k ≤ 15) : 1#16 <<< k ≠ 0#16 := by
  decide +revert

theorem power_toInt {k : Nat} (small : k ≤ 15) :
    (1#16 <<< k).toInt = if k = 15 then -0x8000 else 2 ^ k := by
  decide +revert

theorem rsh_works (label : Nat) : Works (rsh label) 3 (fun _ b => b.toNat ≤ 15)
    fun a b => BitVec.ofInt 16 (a.toInt.tdiv (1#16 <<< b.toNat).toInt) := by
  have lines (x y z : Fin 8) : rsh label x y z = push z ++ ([.andimm x x 0, .addimm x x 1] ++
      (doubling (label + 1) label x z ++ ([.addimm z x 0] ++ div (label + 2) x y z))) ++ pop z := by
    simp [rsh]
  have divides := division_works divLoop_reduces (label + 2)
  have quotient (x y z : Fin 8) : Closed ([.addimm z x 0] ++ div (label + 2) x y z) :=
    (closed_of_plain rfl).append (divides.closed x y z)
  have closed (x y z : Fin 8) : Closed ([.andimm x x 0, .addimm x x 1] ++
      (doubling (label + 1) label x z ++ ([.addimm z x 0] ++ div (label + 2) x y z))) :=
    (closed_of_plain rfl).append ((doubling_closed _ _ _ _).append (quotient x y z))
  refine ⟨fun x y z => ?_, fun globals x y z m xy xz yz x6 y6 z6 count => ?_⟩
  · rw [lines]
    exact ((closed_of_plain rfl).append (closed x y z)).append (closed_of_plain rfl)
  · have stack : 6 ∉ [z, x] := by simp [x6.symm, z6.symm]
    obtain ⟨s, ran⟩ : ∃ s, run globals [.andimm x x 0, .addimm x x 1] (run globals (push z) m) =
      s := ⟨_, rfl⟩
    have first : Changes [z, x] 2 (run globals (push z) m) s := by
      rw [← ran]
      exact (run_changes rfl (by simp [Line.dest]) stack).mono (List.Subset.refl _) (Nat.zero_le 2)
    have sx : s.reg x = 1#16 := by
      rw [← ran]
      simp only [run_cons, run_nil, Line.effect, Machine.set_same]
      exact congrArg (· + 1#16) BitVec.and_zero
    have sz : s.reg z = m.reg z := by
      rw [← ran]
      simp only [run_cons, run_nil, Line.effect, Machine.set_reg, if_neg xz.symm,
        push_keeps z z z6 z6]
    have sy : s.reg y = m.reg y := by
      rw [first.kept y (by simp [xy.symm, yz]), push_keeps z y z6 y6]
    obtain ⟨t, doubled, power, second⟩ := doubling_runs globals (Nat.succ_ne_self label) xz x6 z6 s
    rw [sx, sz] at power
    obtain ⟨u, moved⟩ : ∃ u, run globals [.addimm z x 0] t = u := ⟨_, rfl⟩
    have third : Changes [z, x] 2 t u := by
      rw [← moved]
      exact (run_changes rfl (by simp [Line.dest]) stack).mono (List.Subset.refl _) (Nat.zero_le 2)
    have uz : u.reg z = 1#16 <<< (m.reg z).toNat := by
      rw [← moved]
      simp only [run_cons, run_nil, Line.effect, Machine.set_same, plus_zero, power]
    have before : Changes [z, x] 2 (run globals (push z) m) u :=
      (first.trans (second.mono (by simp) (Nat.zero_le 2)) stack).trans third stack
    have uy : u.reg y = m.reg y := by
      rw [before.kept y (by simp [xy.symm, yz]), push_keeps z y z6 y6]
    obtain ⟨m', divided, value, last⟩ := divides.computes globals x y z u xy xz yz x6 y6 z6
      (by rw [uz]; exact power_nonzero count)
    rw [uy, uz, signed_quotient] at value
    have apart : Apart (doubling (label + 1) label x z)
      ([.addimm z x 0] ++ div (label + 2) x y z) := by
      intro i mem
      simp [doubling, div, division, divLoop, signs, push, pop, neg] at mem ⊢
      omega
    have inner := doubled.seq
        (.after (c := [.addimm z x 0]) rfl (moved ▸ divided) (divides.closed x y z))
      (doubling_closed _ _ _ _) (quotient x y z) apart
    rw [lines]
    exact Computes.saved z6 xz x6 (by decide) (closed x y z)
      (.after rfl (ran ▸ inner) ((doubling_closed _ _ _ _).append (quotient x y z))) value
      (before.trans (last.mono (by simp) le_rfl) stack)

/-- What `simplify` makes of the shift of a constant. -/
def foldedRsh (a : Word) (k : Nat) : Simp.Tree :=
  Simp.simplifyRsh .I (.cnst .I (a.signExtend 64)) (.cnst .I (.ofNat 64 k))

theorem foldedRsh_eq (a : Word) {k : Nat} (small : k ≤ 15) : foldedRsh a k =
    if k = 0 then .cnst .I (a.signExtend 64)
    else if k < 8 then
      let n := (a.signExtend 64).sshiftRight k
      .cnst .I (if (a.signExtend 64).toInt < 0 then n ||| BitVec.allOnes 64 <<< (8 - k) else n)
    else .binary .rsh .I (.cnst .I (a.signExtend 64)) (.cnst .I (.ofNat 64 k)) := by
  have counts : ∀ k : Fin 16, (BitVec.ofNat 64 k.val).toInt = k.val ∧
    (BitVec.ofNat 64 k.val).toNat = k.val ∧
      (BitVec.ofNat 64 k.val = 0 ↔ k.val = 0) := by decide +kernel
  obtain ⟨int, nat, zero⟩ := counts ⟨k, by omega⟩
  dsimp only at int nat zero
  have mask : ~~~(0 : BitVec 64) = BitVec.allOnes 64 := by decide
  unfold foldedRsh Simp.simplifyRsh Simp.identity
  simp only [Simp.Tree.const, if_true, Option.bind_eq_bind, Option.bind_some, Option.some.injEq,
    int, nat, zero, mask,
    Simp.size, Nat.mul_one, Simp.cnsttree]
  by_cases none_ : k = 0
  · simp [none_]
  · by_cases few : k < 8
    · have fits : (k : Int) < 8 := by omega
      simp [none_, few, fits]
    · have large : ¬ (k : Int) < 8 := by omega
      simp [none_, few, large]

theorem or_high_eq_iff {w : Nat} (x : BitVec w) {j : Nat} (less : j < w) :
    x ||| BitVec.allOnes w <<< j = x ↔ x.sshiftRight j = BitVec.allOnes w := by
  have high : x ||| BitVec.allOnes w <<< j = x ↔ ∀ i, j ≤ i → i < w → x.getLsbD i = true := by
    constructor
    · intro same i above inside
      have bit := congrArg (BitVec.getLsbD · i) same
      simpa [inside, Nat.not_lt.mpr above, BitVec.getLsbD_shiftLeft,
        Nat.lt_of_le_of_lt (Nat.sub_le i j) inside]
        using bit
    · intro set
      apply BitVec.eq_of_getLsbD_eq
      intro i inside
      by_cases above : j ≤ i
      · simp [set i above inside]
      · simp [Nat.not_le.mp above]
  rw [high]
  constructor
  · intro set
    apply BitVec.eq_of_getLsbD_eq
    intro i inside
    have top : x.msb = true := by
      rw [BitVec.msb_eq_getLsbD_last]
      exact set (w - 1) (by omega) (by omega)
    by_cases within : j + i < w
    · simp [inside, within, BitVec.getLsbD_sshiftRight, set (j + i) (Nat.le_add_right j i) within]
    · simp [inside, within, BitVec.getLsbD_sshiftRight, top]
  · intro same i above inside
    have bit := congrArg (BitVec.getLsbD · (i - j)) same
    have whole : j + (i - j) = i := by omega
    have within : ¬ w ≤ i - j := by omega
    simp only [BitVec.getLsbD_sshiftRight, whole, if_pos inside, within, decide_false,
      Bool.not_false,
      Bool.true_and, BitVec.getLsbD_allOnes, Nat.not_le.mp within, decide_true] at bit
    exact bit

theorem shift_eq_allOnes_iff {w : Nat} (x : BitVec w) (j : Nat) (positive : 0 < w) :
    x.sshiftRight j = BitVec.allOnes w ↔ -2 ^ j ≤ x.toInt ∧ x.toInt < 0 := by
  have power : (0 : Int) < (2 ^ j : Nat) := Int.natCast_pos.mpr (Nat.two_pow_pos j)
  have allOnes : (BitVec.allOnes w).toInt = -1 := by rw [BitVec.toInt_allOnes, if_pos positive]
  have low := Int.le_ediv_iff_mul_le (a := -1) (b := x.toInt) power
  have high := Int.ediv_lt_iff_lt_mul (a := x.toInt) (b := 0) power
  rw [← BitVec.toInt_inj, BitVec.toInt_sshiftRight, Int.shiftRight_eq_div_pow, allOnes]
  push_cast at low high ⊢
  omega

theorem folded_iff {a : Word} {k : Nat} (small : k ≤ 15) :
    (∀ n, foldedRsh a k = .cnst .I n → n.toInt = a.toInt / 2 ^ k) ↔
      (0 ≤ a.toInt ∨ k = 0 ∨ 8 ≤ k ∨ -0x100 ≤ a.toInt) := by
  have host : (a.signExtend 64).toInt = a.toInt := BitVec.toInt_signExtend_of_le (by decide)
  have shifted : ((a.signExtend 64).sshiftRight k).toInt = a.toInt / 2 ^ k := by
    rw [BitVec.toInt_sshiftRight, host, Int.shiftRight_eq_div_pow]
    norm_cast
  rw [foldedRsh_eq a small]
  by_cases zero : k = 0
  · subst zero
    simp [host]
  by_cases many : 8 ≤ k
  · rw [if_neg zero, if_neg (by omega)]
    exact iff_of_true (fun n folded => by cases folded) (.inr (.inr (.inl many)))
  · rw [if_neg zero, if_pos (by omega)]
    simp only [host, Simp.Tree.cnst.injEq, true_and, forall_eq']
    by_cases below : a.toInt < 0
    · rw [if_pos below, ← shifted, BitVec.toInt_inj, or_high_eq_iff _ (by omega),
        shift_eq_allOnes_iff _ _ (by decide), shifted]
      have power : (0 : Int) < 2 ^ k := Int.pow_pos (by decide)
      have scale : (2 : Int) ^ (8 - k) * 2 ^ k = 0x100 := by
        have total : 8 - k + k = 8 := by omega
        rw [← pow_add, total]
        rfl
      have bound := Int.le_ediv_iff_mul_le (a := -2 ^ (8 - k)) (b := a.toInt) power
      have sign := Int.ediv_lt_iff_lt_mul (a := a.toInt) (b := 0) power
      rw [neg_mul, scale] at bound
      rw [bound, sign]
      omega
    · rw [if_neg below]
      exact iff_of_true shifted (.inl (by omega))

theorem ofInt_apart {x y : Int} (low : -0x8000 ≤ x) (high : x ≤ 0x7fff) (low' : -0x8000 ≤ y)
    (high' : y ≤ 0x7fff) :
    BitVec.ofInt 16 x = BitVec.ofInt 16 y ↔ x = y := by
  rw [← BitVec.toInt_inj, BitVec.toInt_ofInt, BitVec.toInt_ofInt, Int.bmod_eq_of_le (by omega)
    (by omega),
    Int.bmod_eq_of_le (by omega) (by omega)]

theorem emitted_iff {a : Word} {k : Nat} (small : k ≤ 15) :
    BitVec.ofInt 16 (a.toInt.tdiv (1#16 <<< k).toInt) = BitVec.ofInt 16 (a.toInt / 2 ^ k) ↔
      (0 ≤ a.toInt ∨ k < 15 ∧ 2 ^ k ∣ a.toInt) := by
  have high := BitVec.toInt_lt (x := a)
  have low := BitVec.le_toInt (x := a)
  rw [power_toInt small, Int.tdiv_eq_ediv]
  generalize a.toInt = v at *
  by_cases last : k = 15
  · subst last
    rw [if_pos rfl, Int.ediv_neg]
    have sign : Int.sign (-0x8000) = -1 := rfl
    have power : (2 : Int) ^ 15 = 0x8000 := rfl
    rw [sign, power]
    by_cases nonneg : 0 ≤ v
    · have zero : v / 0x8000 = 0 := by omega
      rw [if_pos (.inl nonneg), zero]
      exact iff_of_true rfl (.inl nonneg)
    · have minus : v / 0x8000 = -1 := by omega
      rw [minus, ofInt_apart (by split <;> decide) (by split <;> decide) (by decide) (by decide)]
      refine iff_of_false ?_ (by omega)
      split <;> decide
  · have power : (0 : Int) < 2 ^ k := Int.pow_pos (by decide)
    rw [if_neg last, Int.sign_eq_one_of_pos power]
    by_cases nonneg : 0 ≤ v
    · simp [nonneg]
    · have lower : -0x8000 ≤ v / 2 ^ k := by
        rw [Int.le_ediv_iff_mul_le power]
        generalize (2 : Int) ^ k = p at *
        omega
      have upper : v / 2 ^ k < 0 := by
        rw [Int.ediv_lt_iff_lt_mul power]
        omega
      by_cases divides : 2 ^ k ∣ v
      · rw [if_pos (.inr divides), Int.add_zero]
        exact iff_of_true rfl (.inr ⟨by omega, divides⟩)
      · rw [if_neg (by tauto), ofInt_apart (by omega) (by omega) (by omega) (by omega)]
        exact iff_of_false (by omega) (by tauto)

/-- The emitted code leaves the floor of x / 2^k in the destination, and so does the folded
constant. -/
def ShiftsRight (label : Nat) (dest left right : Fin 8) (a : Word) (k : Nat) : Prop :=
  (∃ code, emitBinary (rsh label) dest left right = some code ∧ ∀ globals (m : Machine),
    m.reg left = a → m.reg right = BitVec.ofNat 16 k →
      Computes globals code 5 dest (BitVec.ofInt 16 (a.toInt / 2 ^ k)) m) ∧
  ∀ n, foldedRsh a k = .cnst .I n → n.toInt = a.toInt / 2 ^ k

theorem computes_right_iff (label : Nat) (dest left right : Temp) (different : left ≠ right)
    (a : Word)
    {k : Nat} (small : k ≤ 15) :
    ShiftsRight label dest left right a k ↔ (0 ≤ a.toInt ∨ k < 15 ∧ 2 ^ k ∣ a.toInt) ∧
      (0 ≤ a.toInt ∨ k = 0 ∨ 8 ≤ k ∨ -0x100 ≤ a.toInt) := by
  have count : (BitVec.ofNat 16 k).toNat = k := by
    rw [BitVec.toNat_ofNat]
    omega
  have emitted := emitBinary_computes_iff (rsh_works label) (by decide) dest left right different
    (a := a)
    (Nat.le_trans (Nat.le_of_eq count) small) (BitVec.ofInt 16 (a.toInt / 2 ^ k))
  rw [count] at emitted
  exact and_congr (emitted.trans (emitted_iff small)) (folded_iff small)

/-- Both are the arithmetic shift exactly for these operands. -/
theorem shifts_right_iff (label : Nat) (dest left right : Temp) (different : left ≠ right)
    (a : Word)
    {k : Nat} (small : k ≤ 15) :
    ShiftsRight label dest left right a k ↔
      (0 ≤ a.toInt ∨ k < 15 ∧ 2 ^ k ∣ a.toInt ∧ (k = 0 ∨ 8 ≤ k ∨ -0x100 ≤ a.toInt)) := by
  rw [computes_right_iff label dest left right different a small]
  tauto

theorem minus_four_by_two : ShiftsRight 1 0 1 2 (-4) 2 ↔ (0 ≤ (-4 : Word).toInt ∨
    2 < 15 ∧ 2 ^ 2 ∣ (-4 : Word).toInt ∧ (2 = 0 ∨ 8 ≤ 2 ∨ -0x100 ≤ (-4 : Word).toInt)) :=
  shifts_right_iff 1 ⟨0, by decide⟩ ⟨1, by decide⟩ ⟨2, by decide⟩ (by decide) (-4) (by decide)

theorem minus_one_by_one : ¬ ShiftsRight 1 0 1 2 (-1) 1 := by
  intro shifts
  have right := (computes_right_iff 1 ⟨0, by decide⟩ ⟨1, by decide⟩ ⟨2, by decide⟩ (by decide) (-1)
    (by decide)).mp shifts
  exact absurd right.1 (by decide)

end LC3Tools.Emit
