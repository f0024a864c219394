import LC3Tools.Stdio.Printf

/-! The conversion of a number: division by subtraction, and a buffer that is filled from its
end. -/
namespace LC3Tools.Stdio.Printf
open Emit StateTransition Inst

set_option maxRecDepth 8000

/-- The words of the buffer that are written. -/
def Buffer (base a : Word) : Prop := ∃ j < width, a = routine.place base .buf j

section
variable {os : Os} {base : Word} {s : State}

variable (os) in
theorem divloop {x b : Nat} (small : x ≤ 0x8000) (positive : 0 < b) (narrow : b ≤ 16)
    (loaded : routine.Loaded base s.machine.mem) (pc : s.pc = routine.place base .divloop 0)
    (value : s.machine.reg 0 = BitVec.ofNat 16 x) (divisor : s.machine.reg 2 = -BitVec.ofNat 16 b) :
    ∃ t, Path os (Buffer base) s t ∧ t.pc = routine.place base .divloop 3 ∧
      t.machine.reg 0 = BitVec.ofNat 16 (x % b) - BitVec.ofNat 16 b ∧
      t.machine.reg 3 = s.machine.reg 3 + 1 + BitVec.ofNat 16 (x / b) ∧ Kept [0, 3] s t := by
  induction x using Nat.strong_induction_on generalizing s with
  | _ x ih =>
    obtain ⟨t, reaches, there, machine, kept⟩ := Routine.branch os (Buffer base) loaded pc
      [addImm 3 3 1, add 0 0 2] false true true .divloop (by decide) rfl
    have left : t.machine.reg 0 = BitVec.ofNat 16 x - BitVec.ofNat 16 b := by
      rw [machine, BitVec.sub_eq_add_neg, ← divisor, ← value]
      rfl
    have count : t.machine.reg 3 = s.machine.reg 3 + 1 := by
      rw [machine]
      rfl
    have last : t.machine.last = t.machine.reg 0 := by
      rw [machine]
      rfl
    have keeps : Kept [0, 3] s t := kept.mono (by decide)
    rw [← machine, takes_zp, last, left, sub_msb small positive (by omega)] at there
    by_cases less : x < b
    · refine ⟨t, reaches, ?_, ?_, ?_, keeps⟩
      · simpa [less] using there
      · rw [left, Nat.mod_eq_of_lt less]
      · rw [count, Nat.div_eq_of_lt less, BitVec.ofNat_eq_ofNat, BitVec.add_zero]
    · simp only [less, decide_false, Bool.not_false, if_true] at there
      have more : b ≤ x := Nat.le_of_not_lt less
      obtain ⟨u, reaches', pc', remainder, quotient, kept'⟩ := ih (x - b) (by omega) (by omega)
        (keeps.mem ▸ loaded) there (left.trans (ofNat_sub more))
        ((keeps.reg 2 (by decide)).trans divisor)
      refine ⟨u, reaches.trans reaches', pc', ?_, ?_, keeps.trans kept'⟩
      · rw [remainder, Nat.mod_eq_sub_mod more]
      · rw [quotient, count, Nat.div_eq_sub_div positive more, BitVec.ofNat_add]
        exact (BitVec.add_assoc _ _ _).trans
          (congrArg (s.machine.reg 3 + 1 + ·) (BitVec.add_comm _ _))

end

/-! The buffer. -/

/-- The text stands from an index of the buffer on to its last word, which is zero. -/
def Shown (base : Word) (mem : Word → Word) : Nat → List Word → Prop
  | i, [] => i = width ∧ mem (routine.place base .buf i) = 0
  | i, c :: text =>
    i < width ∧ c ≠ 0 ∧ mem (routine.place base .buf i) = c ∧ Shown base mem (i + 1) text

theorem buf_inside : index routine.items .buf + width < (cells routine.items).length := by decide

theorem size_small : (cells routine.items).length < 2 ^ 16 := by decide

theorem buf_ne {base : Word} {i j : Nat} (less : j < i) (inside : i ≤ width) :
    routine.place base .buf i ≠ routine.place base .buf j := by
  intro same
  have := buf_inside
  have := size_small
  have := offset_inj (by omega) (by omega) same
  omega

theorem loaded_buf {base v : Word} {mem : Word → Word} (loaded : routine.Loaded base mem) {j : Nat}
    (inside : j < width) : routine.Loaded base fun b =>
      if b = routine.place base .buf j then v else mem b := by
  refine loaded.write fun k below fixed same => ?_
  have := buf_inside
  have := size_small
  have here : k = index source .buf + j := offset_inj (Nat.lt_trans below size_small)
    (show index routine.items .buf + j < 2 ^ 16 by omega) same
  have written : routine.scratch k = true := by
    simp only [routine, Bool.and_eq_true, decide_eq_true_eq]
    omega
  exact Bool.noConfusion (fixed.symm.trans written)

section
variable {base : Word} {mem : Word → Word} {i j : Nat} {text : List Word}

theorem Shown.string (shown : Shown base mem i text) :
    stringFrom mem (text.length + 1) (routine.place base .buf i) = some text := by
  induction text generalizing i with
  | nil => exact stringFrom_end 0 shown.2
  | cons c text ih =>
    obtain ⟨-, nonzero, there, rest⟩ := shown
    have next : routine.place base .buf i + 1 = routine.place base .buf (i + 1) := next_address _ _
    exact stringFrom_next there nonzero (next ▸ ih rest)

theorem Shown.length (shown : Shown base mem i text) : i + text.length = width := by
  induction text generalizing i with
  | nil => exact shown.1
  | cons c text ih =>
    have := ih shown.2.2.2
    rw [List.length_cons]
    omega

theorem Shown.write {v : Word} (shown : Shown base mem i text) (less : j < i) :
    Shown base (fun b => if b = routine.place base .buf j then v else mem b) i text := by
  induction text generalizing i with
  | nil => exact ⟨shown.1, (if_neg (buf_ne less (Nat.le_of_eq shown.1))).trans shown.2⟩
  | cons c text ih =>
    obtain ⟨inside, nonzero, there, rest⟩ := shown
    exact ⟨inside, nonzero, (if_neg (buf_ne less (Nat.le_of_lt inside))).trans there,
      ih rest (Nat.lt_succ_of_lt less)⟩

theorem shown_nil (loaded : routine.Loaded base mem) : Shown base mem width [] :=
  ⟨rfl, loaded (index source .buf + width) 0 (by decide) (by decide)⟩

/-- The word for a digit. -/
def digitWord (c : Char) : Word := BitVec.ofNat 16 c.toNat

theorem table (loaded : routine.Loaded base mem) {d : Nat} (small : d < 16) :
    mem (routine.place base .ascii d) = digitWord d.digitChar := by
  have entries : ∀ d < 16, image source (index source .ascii + d) = some (digitWord d.digitChar) ∧
      routine.scratch (index source .ascii + d) = false := by decide
  exact loaded _ _ (entries d small).1 (entries d small).2

end

/-- From the remainder in R0 to the digit in R1. -/
def digit : List (Inst Label) :=
  [lea 1 .ascii, add 1 1 0, not 2 2, add 1 1 2, addImm 1 1 1, not 2 2, ldr 1 1 0]

section
variable {os : Os} {base : Word} {s : State}

variable (os) in
theorem digit_stored {start : Label} {n d b i : Nat} {text : List Word}
    (there : (digit ++ [str 1 7 0]).map .inst <+: (cells routine.items).drop
      (index routine.items start + n))
    (loaded : routine.Loaded base s.machine.mem) (pc : s.pc = routine.place base start n)
    (small : d < 16) (remainder : s.machine.reg 0 = BitVec.ofNat 16 d - BitVec.ofNat 16 b)
    (divisor : s.machine.reg 2 = -BitVec.ofNat 16 b)
    (next : s.machine.reg 7 = routine.place base .buf i)
    (inside : i < width) (shown : Shown base s.machine.mem (i + 1) text) :
    ∃ t, Path os (Buffer base) s t ∧ t.pc = routine.place base start (n + 8) ∧
      routine.Loaded base t.machine.mem ∧ t.machine.reg 2 = -BitVec.ofNat 16 b ∧
      Shown base t.machine.mem i (digitWord d.digitChar :: text) ∧
      Within [1, 2] (Buffer base) s t := by
  obtain ⟨t, reaches, pc', machine, input, output⟩ :=
    Routine.store os (Buffer base) loaded pc digit 1 7 0 there rfl
    ⟨i, inside, (plus_zero _).trans next⟩
  have entry : routine.address base .ascii + s.machine.reg 0 + ~~~ s.machine.reg 2 +
    BitVec.ofInt 16 1 +
      BitVec.ofInt 16 0 = routine.place base .ascii d := by
    rw [plus_zero, BitVec.add_assoc _ (~~~ _), neg_word, divisor, remainder, BitVec.neg_neg,
      BitVec.add_assoc,
      BitVec.sub_add_cancel, Routine.address, BitVec.add_assoc, ← BitVec.ofNat_add]
    rfl
  have mem : t.machine.mem = fun a => if a = routine.place base .buf i then digitWord d.digitChar
      else s.machine.mem a := by
    rw [← table loaded small, ← entry, ← next, ← plus_zero (s.machine.reg 7), machine]
    rfl
  have two : t.machine.reg 2 = s.machine.reg 2 := by
    rw [machine]
    exact BitVec.not_not
  have nonzero : ∀ d < 16, digitWord d.digitChar ≠ 0 := by decide
  refine ⟨t, reaches, pc', ?_, two.trans divisor, ⟨inside, nonzero d small, ?_, ?_⟩, ?_, ?_,
    input, output⟩
  · exact mem ▸ loaded_buf loaded inside
  · rw [mem]
    exact if_pos rfl
  · exact mem ▸ shown.write (Nat.lt_succ_self i)
  · intro j away
    have written : (digit ++ [str 1 7 0]).flatMap Inst.dest ⊆ [1, 2] := by decide
    rw [machine]
    exact run_reg _ fun mem => away (written mem)
  · intro a away
    rw [mem]
    exact if_neg fun same => away ⟨i, inside, same⟩

variable (os) in
theorem digits_stored {b : Nat} (two : 2 ≤ b) (narrow : b ≤ 16) {x i : Nat} {text : List Word}
    (small : x ≤ 0x8000) (fits : x < b ^ i) (positive : 0 < i) (inside : i < width)
    (loaded : routine.Loaded base s.machine.mem) (pc : s.pc = routine.place base .decpos 0)
    (value : s.machine.reg 0 = BitVec.ofNat 16 x) (divisor : s.machine.reg 2 = -BitVec.ofNat 16 b)
    (next : s.machine.reg 7 = routine.place base .buf i)
    (shown : Shown base s.machine.mem (i + 1) text) :
    ∃ t j, Path os (Buffer base) s t ∧ t.pc = routine.place base .lastdigit 8 ∧ 0 < j ∧ j < width ∧
      t.machine.reg 7 = routine.place base .buf j ∧ routine.Loaded base t.machine.mem ∧
      Shown base t.machine.mem j ((Nat.toDigits b x).map digitWord ++ text) ∧
      Within [0, 1, 2, 3, 7] (Buffer base) s t := by
  induction i generalizing x s text with
  | zero => cases positive
  | succ i ih =>
    obtain ⟨s₁, reaches₁, pc₁, machine₁, kept₁⟩ := Routine.piece os (Buffer base) loaded pc
      [andImm 3 3 0, addImm 3 3 (-1)] (by decide) rfl
    have three : s₁.machine.reg 3 = -1 := by
      rw [machine₁]
      exact (congrArg (· + BitVec.ofInt 16 (-1)) BitVec.and_zero).trans (by decide)
    obtain ⟨s₂, reaches₂, pc₂, remainder, quotient, kept₂⟩ := divloop os small (by omega) narrow
      (kept₁.mem ▸ loaded) (pc₁.trans (routine.place_eq (by decide)))
      ((kept₁.reg 0 (by decide)).trans value) ((kept₁.reg 2 (by decide)).trans divisor)
    have kept₁₂ : Kept [0, 3] s s₂ := (kept₁.mono (by decide)).trans kept₂
    rw [three] at quotient
    have quotient : s₂.machine.reg 3 = BitVec.ofNat 16 (x / b) := by
      rw [quotient]
      exact BitVec.zero_add _
    obtain ⟨s₃, reaches₃, pc₃, machine₃, kept₃⟩ :=
      Routine.branch os (Buffer base) (kept₁₂.mem ▸ loaded) pc₂
      [addImm 3 3 0] false true false .lastdigit (by decide) rfl
    have kept₁₃ : Kept [0, 3] s s₃ := kept₁₂.trans (kept₃.mono (by decide))
    have last : (run (routine.address base) [addImm 3 3 0] s₂.machine).last = BitVec.ofNat 16
      (x / b) := by
      rw [← quotient]
      exact plus_zero _
    rw [takes_z, last] at pc₃
    have narrowed := (kept₁₃.mono (show [0, 3] ⊆ [0, 1, 2, 3, 7] by decide)).within (Buffer base)
    have reaches : Path os (Buffer base) s s₃ := (reaches₁.trans reaches₂).trans reaches₃
    have loaded₃ : routine.Loaded base s₃.machine.mem := kept₁₃.mem ▸ loaded
    have remainder₃ := (kept₃.reg 0 (by decide)).trans remainder
    have divisor₃ := (kept₁₃.reg 2 (by decide)).trans divisor
    have next₃ := (kept₁₃.reg 7 (by decide)).trans next
    have shown₃ : Shown base s₃.machine.mem (i + 1 + 1) text := kept₁₃.mem ▸ shown
    have digit_small : x % b < 16 := Nat.lt_of_lt_of_le (Nat.mod_lt x (by omega)) narrow
    by_cases less : x < b
    · rw [Nat.div_eq_of_lt less] at pc₃
      obtain ⟨t, reaches₄, pc₄, loaded₄, -, shown₄, within⟩ := digit_stored os (by decide)
        loaded₃ pc₃ digit_small remainder₃ divisor₃ next₃ inside shown₃
      rw [Nat.mod_eq_of_lt less] at shown₄
      refine ⟨t, i + 1, reaches.trans reaches₄, pc₄, positive, inside, ?_, loaded₄, ?_,
        narrowed.trans (within.mono (by decide))⟩
      · exact (within.reg 7 (by decide)).trans next₃
      · rw [Nat.toDigits_of_lt_base less]
        exact shown₄
    · have more : b ≤ x := Nat.le_of_not_lt less
      have quotient_positive : 0 < x / b := Nat.div_pos more (by omega)
      have quotient_small : x / b ≤ x := Nat.div_le_self x b
      have nonzero : BitVec.ofNat 16 (x / b) ≠ 0#16 := by
        intro zero
        have := congrArg BitVec.toNat zero
        rw [BitVec.toNat_ofNat, Nat.mod_eq_of_lt (by omega)] at this
        exact Nat.ne_of_gt quotient_positive this
      rw [decide_eq_false nonzero, if_neg Bool.false_ne_true] at pc₃
      obtain ⟨s₄, reaches₄, pc₄, loaded₄, divisor₄, shown₄, within₄⟩ := digit_stored os
        (by decide) loaded₃ pc₃ digit_small remainder₃ divisor₃ next₃ inside shown₃
      obtain ⟨s₅, reaches₅, pc₅, machine₅, kept₅⟩ := Routine.branch os (Buffer base) loaded₄ pc₄
        [addImm 7 7 (-1), addImm 0 3 0] true true true .decpos (by decide) rfl
      have three₃ : s₃.machine.reg 3 = BitVec.ofNat 16 (x / b) := by
        rw [machine₃, ← quotient]
        exact plus_zero _
      have value₅ : s₅.machine.reg 0 = BitVec.ofNat 16 (x / b) := by
        rw [machine₅, ← three₃, ← within₄.reg 3 (by decide)]
        exact plus_zero _
      have next₅ : s₅.machine.reg 7 = routine.place base .buf i := by
        have back : routine.place base .buf (i + 1) = routine.place base .buf i + 1 :=
          (next_address _ _).symm
        rw [← BitVec.add_sub_cancel (routine.place base .buf i) 1, ← back, ← next₃,
          ← within₄.reg 7 (by decide), ← minus_one, machine₅]
        rfl
      have fits' : x / b < b ^ i := Nat.div_lt_of_lt_mul (by rwa [← pow_succ'])
      have left : 0 < i := by
        by_contra none
        rw [Nat.eq_zero_of_not_pos none, pow_zero] at fits'
        omega
      have within₅ : Within [0, 1, 2, 3, 7] (Buffer base) s s₅ :=
        (narrowed.trans (within₄.mono (by decide))).trans ((kept₅.mono (by decide)).within _)
      rw [takes_always, if_pos rfl] at pc₅
      obtain ⟨t, j, reaches₆, pc₆, positive₆, inside₆, next₆, loaded₆, shown₆, within₆⟩ :=
        ih (Nat.le_trans quotient_small small) fits' left (Nat.lt_of_succ_lt inside)
          (kept₅.mem ▸ loaded₄) pc₅
          value₅ ((kept₅.reg 2 (by decide)).trans divisor₄) next₅ (kept₅.mem ▸ shown₄)
      refine ⟨t, j, ((reaches.trans reaches₄).trans reaches₅).trans reaches₆, pc₆, positive₆,
        inside₆, next₆,
        loaded₆, ?_, within₅.trans within₆⟩
      rw [Nat.toDigits_of_base_le two more, List.map_append, List.append_assoc]
      exact shown₆

end

end LC3Tools.Stdio.Printf
