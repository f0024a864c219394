import LC3Tools.Lcc.ShiftWord

/-! What a compiled shift computes, and what C says it computes. -/
namespace LC3Tools.Lcc
open Flex Assembler Sim

section arithmetic
variable {w : Nat}

/-- The value C gives a shift by a count below the width; `>>` of a signed number rounds down. -/
def ShiftOp.value (op : ShiftOp) (x : BitVec w) (k : Nat) : BitVec w :=
  match op with
  | .LSHI | .LSHU => BitVec.ofNat w (x.toNat * 2 ^ k)
  | .RSHI => BitVec.ofInt w (x.toInt / 2 ^ k)
  | .RSHU => BitVec.ofNat w (x.toNat / 2 ^ k)

/-- The value the processor computes: a right shift always brings zeros in. -/
def ShiftOp.computed (op : ShiftOp) (x : BitVec w) (k : Nat) : BitVec w :=
  match op with
  | .LSHI | .LSHU => BitVec.ofNat w (x.toNat * 2 ^ k)
  | .RSHI | .RSHU => BitVec.ofNat w (x.toNat / 2 ^ k)

theorem shiftLeft_eq (x : BitVec w) {k : Nat} (small : k < 32) :
    shiftLeft x k = some (BitVec.ofNat w (x.toNat * 2 ^ k)) := by
  have wide : 32 ≤ promotedWidth w ∧ w ≤ promotedWidth w := by
    unfold promotedWidth
    split <;> omega
  rw [shiftLeft, if_pos (by omega)]
  congr 1
  apply BitVec.eq_of_toNat_eq
  have bound : x.toNat < 2 ^ promotedWidth w :=
    Nat.lt_of_lt_of_le x.isLt (Nat.pow_le_pow_right (by decide) wide.2)
  rw [BitVec.toNat_setWidth, BitVec.toNat_shiftLeft, BitVec.toNat_setWidth, Nat.shiftLeft_eq,
    BitVec.toNat_ofNat, Nat.mod_eq_of_lt bound, Nat.mod_mod_of_dvd _ (Nat.pow_dvd_pow 2 wide.2)]

theorem shiftRight_eq (x : BitVec w) {k : Nat} (small : k < 32) :
    shiftRight x k = some (BitVec.ofNat w (x.toNat / 2 ^ k)) := by
  have wide : 32 ≤ promotedWidth w ∧ w ≤ promotedWidth w := by
    unfold promotedWidth
    split <;> omega
  rw [shiftRight, if_pos (by omega)]
  congr 1
  apply BitVec.eq_of_toNat_eq
  have bound : x.toNat < 2 ^ promotedWidth w :=
    Nat.lt_of_lt_of_le x.isLt (Nat.pow_le_pow_right (by decide) wide.2)
  rw [BitVec.toNat_setWidth, BitVec.toNat_ushiftRight, BitVec.toNat_setWidth,
    Nat.shiftRight_eq_div_pow, BitVec.toNat_ofNat, Nat.mod_eq_of_lt bound]

theorem unsigned_of_nonneg {x : BitVec w} (positive : 0 ≤ x.toInt) : x.toInt = x.toNat := by
  have bound := x.isLt
  have value := BitVec.toInt_eq_toNat_cond x
  split at value <;> omega

theorem arithmetic_toNat {x : BitVec w} (low : x.toInt < 0) (k : Nat) :
    x.toInt ≤ x.toInt / 2 ^ k ∧ x.toInt / 2 ^ k < 0 ∧
      ((BitVec.ofInt w (x.toInt / 2 ^ k)).toNat : Int) = (2 ^ w : Nat) + x.toInt / 2 ^ k := by
  have bound := x.isLt
  have signed : x.toInt = x.toNat - (2 ^ w : Nat) := by
    have value := BitVec.toInt_eq_toNat_cond x
    split at value <;> omega
  have power : (0 : Int) < 2 ^ k := by positivity
  have rounded : x.toInt / 2 ^ k < 0 := Int.ediv_neg_of_neg_of_pos low power
  have above : x.toInt ≤ x.toInt / 2 ^ k := by
    refine (Int.le_ediv_iff_mul_le power).mpr ?_
    have one : (1 : Int) ≤ 2 ^ k := power
    have := Int.mul_le_mul_of_nonpos_left (Int.le_of_lt low) one
    omega
  refine ⟨above, rounded, ?_⟩
  rw [BitVec.toNat_ofInt, Int.toNat_of_nonneg (Int.emod_nonneg _ (by positivity)),
    ← Int.add_emod_right, Int.add_comm, Int.emod_eq_of_lt] <;> omega

theorem logical_toNat (x : BitVec w) (k : Nat) :
    (BitVec.ofNat w (x.toNat / 2 ^ k)).toNat = x.toNat / 2 ^ k := by
  have bound := x.isLt
  have shorter := Nat.div_le_self x.toNat (2 ^ k)
  rw [BitVec.toNat_ofNat, Nat.mod_eq_of_lt (by omega)]

theorem logical_ne_arithmetic {x : BitVec w} (low : x.toInt < 0) {j : Nat} (shifted : j ≠ 0)
    (k : Nat) :
    BitVec.ofNat w (x.toNat / 2 ^ j) ≠ BitVec.ofInt w (x.toInt / 2 ^ k) := by
  intro same
  have bound := x.isLt
  obtain ⟨above, rounded, right⟩ := arithmetic_toNat low k
  have halved : 2 * (x.toNat / 2 ^ j) ≤ x.toNat := by
    obtain ⟨i, rfl⟩ := Nat.exists_eq_succ_of_ne_zero shifted
    rw [Nat.pow_succ, ← Nat.div_div_eq_div_mul]
    have := Nat.div_le_self x.toNat (2 ^ i)
    omega
  rw [← same, logical_toNat] at right
  have value := BitVec.toInt_eq_toNat_cond x
  split at value <;> omega

theorem arithmetic_of_nonneg {x : BitVec w} (positive : 0 ≤ x.toInt) (k : Nat) :
    BitVec.ofInt w (x.toInt / 2 ^ k) = BitVec.ofNat w (x.toNat / 2 ^ k) := by
  rw [unsigned_of_nonneg positive]
  exact_mod_cast BitVec.ofInt_natCast w (x.toNat / 2 ^ k)

/-- Where a shift by the whole count is right. -/
def KeepsSign (op : ShiftOp) (x : BitVec w) (k : Nat) : Prop := op = .RSHI → 0 ≤ x.toInt ∨ k = 0

theorem computed_iff (op : ShiftOp) (x : BitVec w) (k : Nat) :
    op.computed x k = op.value x k ↔ KeepsSign op x k := by
  unfold KeepsSign
  cases op with
  | LSHI | LSHU | RSHU => simp [ShiftOp.computed, ShiftOp.value]
  | RSHI =>
    simp only [ShiftOp.computed, ShiftOp.value, forall_const]
    constructor
    · intro same
      by_contra wrong
      push Not at wrong
      exact logical_ne_arithmetic wrong.1 wrong.2 k same
    · rintro (positive | rfl)
      · exact (arithmetic_of_nonneg positive k).symm
      · simp

/-- Where a shift by 8 less than the count is right all the same. -/
def LosesNothing (op : ShiftOp) (x : BitVec w) (k : Nat) : Prop :=
  match op with
  | .LSHI | .LSHU => x.toNat * 2 ^ (k - 8) % 2 ^ w = 0
  | .RSHI => x.toNat < 2 ^ (k - 8) ∨ k = 8 ∧ x.toInt = -1
  | .RSHU => x.toNat < 2 ^ (k - 8)

theorem truncated_left_iff (y : Nat) :
    BitVec.ofNat w y = BitVec.ofNat w (y * 256) ↔ y % 2 ^ w = 0 := by
  rw [← BitVec.toNat_inj, BitVec.toNat_ofNat, BitVec.toNat_ofNat]
  constructor
  · intro same
    have divides : 2 ^ w ∣ 255 * y := by
      have := (Nat.modEq_iff_dvd' (by omega : y ≤ y * 256)).mp same
      have apart : y * 256 - y = 255 * y := by omega
      rwa [apart] at this
    have coprime : Nat.Coprime (2 ^ w) 255 := Nat.Coprime.pow_left w (by decide)
    exact Nat.mod_eq_zero_of_dvd (coprime.dvd_of_dvd_mul_left divides)
  · intro zero
    rw [zero, Nat.mul_mod, zero]
    simp

theorem truncated_right_iff (x : BitVec w) (k : Nat) :
    BitVec.ofNat w (x.toNat / 2 ^ k) = BitVec.ofNat w (x.toNat / 2 ^ k / 256) ↔
      x.toNat < 2 ^ k := by
  have shorter : x.toNat / 2 ^ k / 256 = x.toNat / 2 ^ (k + 8) := by
    rw [Nat.div_div_eq_div_mul, Nat.pow_add]
  rw [shorter, ← BitVec.toNat_inj, logical_toNat, logical_toNat, ← shorter]
  rw [← Nat.div_eq_zero_iff_lt (Nat.two_pow_pos k)]
  generalize x.toNat / 2 ^ k = y
  omega

theorem truncated_iff (op : ShiftOp) (x : BitVec w) {k : Nat} (wide : 16 ≤ w) (large : 8 ≤ k)
    (small : k ≤ 15) : op.computed x (k - 8) = op.value x k ↔ LosesNothing op x k := by
  obtain ⟨j, rfl⟩ := Nat.exists_eq_add_of_le' large
  have power : 2 ^ (j + 8) = 2 ^ j * 256 := Nat.pow_add ..
  have shorter : x.toNat / 2 ^ (j + 8) = x.toNat / 2 ^ j / 256 := by
    rw [power, Nat.div_div_eq_div_mul]
  cases op with
  | LSHI | LSHU =>
    simp only [ShiftOp.computed, ShiftOp.value, LosesNothing, Nat.add_sub_cancel, power,
      ← Nat.mul_assoc, truncated_left_iff]
  | RSHU =>
    simp only [ShiftOp.computed, ShiftOp.value, LosesNothing, Nat.add_sub_cancel, shorter,
      truncated_right_iff]
  | RSHI =>
    simp only [ShiftOp.computed, ShiftOp.value, LosesNothing, Nat.add_sub_cancel]
    rcases Int.lt_or_le x.toInt 0 with low | positive
    · have value := BitVec.toInt_eq_toNat_cond x
      have half : 2 ^ 16 ≤ 2 ^ w := Nat.pow_le_pow_right (by decide) wide
      have power' : 2 ^ j ≤ 2 ^ 7 := Nat.pow_le_pow_right (by decide) (by omega)
      have bound := x.isLt
      have large : ¬ x.toNat < 2 ^ j := by
        split at value <;> omega
      cases j with
      | succ j =>
        have apart := logical_ne_arithmetic low (Nat.succ_ne_zero j) (j + 1 + 8)
        constructor
        · exact fun same => absurd same apart
        · rintro (below | ⟨none, -⟩)
          · exact absurd below large
          · omega
      | zero =>
        obtain ⟨above, rounded, right⟩ := arithmetic_toNat low 8
        constructor
        · intro same
          rw [Nat.zero_add] at same
          rw [← same, logical_toNat] at right
          refine .inr ⟨rfl, ?_⟩
          split at value <;> omega
        · rintro (below | ⟨-, ones⟩)
          · exact absurd below large
          · calc BitVec.ofNat w (x.toNat / 2 ^ 0) = x := by simp
              _ = BitVec.ofInt w x.toInt := (BitVec.ofInt_toInt ..).symm
              _ = BitVec.ofInt w (x.toInt / 2 ^ (0 + 8)) := by rw [ones]; rfl
    · rw [arithmetic_of_nonneg positive, shorter, truncated_right_iff]
      omega

end arithmetic

/-- From the line to the register: the assembler of the width accepts it in either pass,
and the word it writes leaves the C value in the destination register. -/
def ComputesShift (b : Build) {H : Type} [Host H b.registerBits] (op : ShiftOp) (c s : Fin 8)
    (count : ShiftCount) (post : List Byte) (st : State H b.registerBits) (k : Nat) : Prop :=
  ∃ ls word st', yylex (shiftText op c s count ++ post) = ls ++ yylex post ∧
    (∀ stale (t : AsmState b), t.sawOrig ≠ 0 → (t.codeLoc + 1) % 0x10000 ≠ 0 →
      ∃ t', runPass stale t ls = .ok t' ∧ t'.numErrors = t.numErrors ∧
        t'.objout = t.objout ++ if t.pass = .second then [word] else []) ∧
    executeOneInstruction b.instrBitCount (loadSwap b word) st = some (.success, st') ∧
    st'.regs.reg c = op.value (st.regs.reg s) k

/-- The count a rule is used with. -/
def ShiftCount.Holds {H : Type} {w : Nat} (count : ShiftCount) (st : State H w) (k : Nat) : Prop :=
  match count with
  | .reg n => (st.regs.reg n).toNat = k
  | .uc4 a => a.val = k

/-- Where the assembler and the simulator agree with C. -/
def ShiftHolds (b : Build) (op : ShiftOp) (count : ShiftCount) (x : BitVec b.registerBits)
    (k : Nat) :
    Prop :=
  match count with
  | .reg _ => KeepsSign op x k
  | .uc4 _ => if k < 8 then KeepsSign op x k else b ≠ .bit16 ∧ LosesNothing op x k

section
variable {b : Build} {H : Type} (op : ShiftOp) (c s : Fin 8) (count : ShiftCount)
  (st : State H b.registerBits) (k : Nat)

theorem res_apply (holds : count.Holds st k) (small : k ≤ 15) :
    (op.res count).apply (st.regs.reg s) (st.regs.reg count.field) count.field =
      some (op.computed (st.regs.reg s) (match count with | .reg _ => k | .uc4 _ => k % 8)) := by
  cases count with
  | reg n =>
    have value : (st.regs.reg n).toNat = k := holds
    have left := shiftLeft_eq (st.regs.reg s) (k := k) (by omega)
    have right := shiftRight_eq (st.regs.reg s) (k := k) (by omega)
    cases op <;> simp only [ShiftOp.res, ResOpcode.apply, ShiftCount.field, value, left,
      right] <;> rfl
  | uc4 a =>
    have value : a.val = k := holds
    have field : ((ShiftCount.uc4 a).field : Nat) = k % 8 := by
      rw [← value]
      rfl
    have left := shiftLeft_eq (st.regs.reg s) (k := k % 8) (by omega)
    have right := shiftRight_eq (st.regs.reg s) (k := k % 8) (by omega)
    cases op <;> simp only [ShiftOp.res, ResOpcode.apply, field, left, right] <;> rfl

theorem shift_mem : op.res count ∈ [ResOpcode.SLL, .SRA, .SLLI, .SRAI] := by
  cases op <;> cases count <;> simp [ShiftOp.res]

theorem shiftHolds_iff (holds : count.Holds st k) (small : k ≤ 15) :
    ShiftHolds b op count (st.regs.reg s) k ↔ ¬ Rejected b count ∧
      op.computed (st.regs.reg s) (match count with | .reg _ => k | .uc4 _ => k % 8) =
        op.value (st.regs.reg s) k := by
  have wide : 16 ≤ b.registerBits := by
    cases b <;> decide
  cases count with
  | reg n =>
    simp only [ShiftHolds, Rejected, not_false_eq_true, true_and]
    exact (computed_iff op _ k).symm
  | uc4 a =>
    have value : a.val = k := holds
    simp only [ShiftHolds, Rejected, value]
    split
    · rename_i short
      rw [Nat.mod_eq_of_lt short, computed_iff]
      exact (and_iff_right (fun rejected => by omega)).symm
    · rename_i long
      have eight : k % 8 = k - 8 := by omega
      rw [eight, truncated_iff op _ wide (by omega) small]
      have large : 8 ≤ k := by omega
      simp [large]

theorem computesShift_iff [Host H b.registerBits] (post : List Byte)
    (ends : post.head? ≠ some carriageReturn)
    (holds : count.Holds st k) (small : k ≤ 15) :
    ComputesShift b op c s count post st k ↔ ¬ Rejected b count ∧
      op.computed (st.regs.reg s) (match count with | .reg _ => k | .uc4 _ => k % 8) =
        op.value (st.regs.reg s) k := by
  have scans := (scans_shiftText op c s count ends).lex
  have executed := execute_loaded (b := b) (shift_mem op count) c s count.field st
  rw [res_apply op s count st k holds small, Option.map_some] at executed
  constructor
  · rintro ⟨ls, word, st', lexed, acted, executes, value⟩
    cases List.append_cancel_right (lexed.symm.trans scans)
    let t : AsmState b := { initialState with pass := .second, sawOrig := 1 }
    have started : t.sawOrig ≠ 0 := Nat.one_ne_zero
    have room : (t.codeLoc + 1) % 0x10000 ≠ 0 := show ((0 : Int) + 1) % 0x10000 ≠ 0 by decide
    obtain ⟨t', ran, errors, objout⟩ := acted (fun _ _ => 0) t started room
    obtain ⟨u, ran', done⟩ := shift_acted op c s count (fun _ _ => 0) started room
    cases ran.symm.trans ran'
    have accepted : ¬ Rejected b count := fun rejected => done.rejected rejected errors
    have words := objout.symm.trans (done.objout accepted)
    rw [if_pos rfl, if_pos rfl] at words
    cases List.singleton_inj.mp (List.append_cancel_left words)
    rw [loadedWord] at executed
    cases executes.symm.trans executed
    refine ⟨accepted, ?_⟩
    rw [← value]
    exact (set_reg_same ..).symm
  · rintro ⟨accepted, value⟩
    refine ⟨_, _, _, scans, ?_, executed, ?_⟩
    · intro stale t started room
      obtain ⟨t', ran, done⟩ := shift_acted op c s count stale started room
      exact ⟨t', ran, done.accepted accepted, done.objout accepted⟩
    · rw [← value]
      exact set_reg_same ..

end

/-- A compiled shift is right exactly under the condition: an immediate count keeps only
three bits, which the 16-bit assembler reports and the others do not, and a right shift
of a negative number brings zeros in. -/
theorem compiled_shift_iff (b : Build) {H : Type} [Host H b.registerBits] (op : ShiftOp)
    (c s : Fin 8) (count : ShiftCount) (post : List Byte) (st : State H b.registerBits) (k : Nat)
    (ends : post.head? ≠ some carriageReturn) (holds : count.Holds st k) (small : k ≤ 15) :
    ComputesShift b op c s count post st k ↔ ShiftHolds b op count (st.regs.reg s) k := by
  rw [shiftHolds_iff op s count st k holds small]
  exact computesShift_iff op c s count st k post ends holds small

def machineWith (w : Nat) (v : BitVec w) : State (SimpleHost 0xffff w) w :=
  ⟨⟨fun _ => v, 0x3000, 0⟩, fun _ => 0, ⟨[], [], []⟩⟩

theorem compiled_shift_iff_left :
    ComputesShift .bit16 .LSHI 0 1 (.uc4 3) [] (machineWith 16 5) 3 :=
  (compiled_shift_iff .bit16 .LSHI 0 1 (.uc4 3) [] (machineWith 16 5) 3 (by decide) rfl
    (by decide)).mpr
    (fun right => nomatch right)

/-- `sra R0, R1, #1` with -8 in R1 leaves x7FFC; `sll R0, R1, #8` with 1 in R1 is not
assembled in the 16-bit build, and leaves 1 in the 32-bit one. -/
theorem shifts_differ :
    ¬ ComputesShift .bit16 .RSHI 0 1 (.uc4 1) [] (machineWith 16 0xfff8) 1 ∧
      ¬ ComputesShift .bit16 .LSHI 0 1 (.uc4 8) [] (machineWith 16 1) 8 ∧
      ¬ ComputesShift .bit32 .LSHI 0 1 (.uc4 8) [] (machineWith 32 1) 8 := by
  have sign := (computesShift_iff (b := .bit16) .RSHI 0 1 (.uc4 1) (machineWith 16 0xfff8) 1
    [] (by decide) rfl (by decide)).not
  have narrow := (computesShift_iff (b := .bit16) .LSHI 0 1 (.uc4 8) (machineWith 16 1) 8
    [] (by decide) rfl (by decide)).not
  have truncated := (computesShift_iff (b := .bit32) .LSHI 0 1 (.uc4 8) (machineWith 32 1) 8
    [] (by decide) rfl (by decide)).not
  refine ⟨sign.mpr ?_, narrow.mpr ?_, truncated.mpr ?_⟩
  · rintro ⟨-, same⟩
    exact absurd same (by decide)
  · rintro ⟨accepted, -⟩
    exact accepted ⟨rfl, by decide⟩
  · rintro ⟨-, same⟩
    exact absurd same (by decide)

end LC3Tools.Lcc
