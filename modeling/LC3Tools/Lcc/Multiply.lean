import LC3Tools.Lcc.Operators

/-! `*` between registers: a sum as long as a counter, and the sign afterwards. -/
namespace LC3Tools.Emit

/-- The case MUL+I. -/
def mul (label : Nat) (x y z : Fin 8) : List Line :=
  push z ++ [.andimm x x 0, .addimm z z 0, .br false true false (label + 1),
    .br false false true label] ++
    neg z ++ [.lab label, .add x x y, .addimm z z (-1), .br true false true label,
      .lab (label + 1)] ++
    pop z ++ [.addimm z z 0, .br false true true (label + 2)] ++ neg x ++ [.lab (label + 2)]

/-- The sum with j passes left, from a state with the count in z. -/
structure Summed (x y z : Fin 8) (m : Machine) (j : Nat) (s : Machine) : Prop where
  count : s.reg z = BitVec.ofNat 16 j
  within : j ≤ (m.reg z).toNat
  value : s.reg x = m.reg x + BitVec.ofNat 16 ((m.reg z).toNat - j) * m.reg y
  changes : Changes [x, z] 0 m s

section
variable {globals : String → Word} {x y z : Fin 8} {m s : Machine}

theorem summed_pass (xy : x ≠ y) (xz : x ≠ z) (yz : y ≠ z) (x6 : x ≠ 6) (z6 : z ≠ 6) {j : Nat}
    (summed : Summed x y z m (j + 1) s) :
    Summed x y z m j (run globals ([.add x x y] ++ [.addimm z z (-1)]) s) := by
  have stack : 6 ∉ [x, z] := by simp [x6.symm, z6.symm]
  have once : (m.reg z).toNat - j = (m.reg z).toNat - (j + 1) + 1 := by
    have := summed.within
    omega
  have same : s.reg y = m.reg y := summed.changes.kept y (by simp [xy.symm, yz])
  refine ⟨?_, Nat.le_of_succ_le summed.within, ?_, summed.changes.trans ?_ stack⟩
  · simp only [List.cons_append, List.nil_append, run_cons, run_nil, Line.effect, Machine.set_same,
      Machine.set_reg, if_neg xz.symm, summed.count, minus_one, ofNat_pred]
  · simp only [List.cons_append, List.nil_append, run_cons, run_nil, Line.effect, Machine.set_same,
      Machine.set_reg, if_neg xz, summed.value, once, same]
    rw [BitVec.ofNat_add, BitVec.add_mul, BitVec.one_mul, BitVec.add_assoc]
  · exact run_changes rfl (by simp [Line.dest]) stack

variable (globals) in
theorem sum_loop (label : Nat) (xy : x ≠ y) (xz : x ≠ z) (yz : y ≠ z) (x6 : x ≠ 6) (z6 : z ≠ 6)
    (nonzero : m.reg z ≠ 0#16) :
    ∃ m', Executes globals (loop label [.add x x y, .addimm z z (-1)] true false true) m m' ∧
      m'.reg x = m.reg x + m.reg z * m.reg y ∧ Changes [x, z] 0 m m' := by
  obtain ⟨k, count⟩ : ∃ k, (m.reg z).toNat = k + 1 :=
    Nat.exists_eq_succ_of_ne_zero fun zero => nonzero (BitVec.eq_of_toNat_eq zero)
  have bound : k + 1 < 2 ^ 16 := count ▸ (m.reg z).isLt
  have start : Summed x y z m (k + 1) m := by
    refine ⟨?_, Nat.le_of_eq count.symm, ?_, .refl m⟩
    · rw [← count, BitVec.ofNat_toNat, BitVec.setWidth_eq]
    · rw [count, Nat.sub_self, BitVec.zero_mul, BitVec.add_zero]
  obtain ⟨m', executes, final⟩ := loop_countdown globals (i := label) [.add x x y] rfl
    (Summed x y z m) (fun j s summed => summed.count)
    (fun j s summed => summed_pass xy xz yz x6 z6 summed) k (by omega) start
  refine ⟨m', executes, ?_, final.changes⟩
  rw [final.value, Nat.sub_zero, BitVec.ofNat_toNat, BitVec.setWidth_eq]

/-- Between the saves: the count is made positive and the sum is left out for zero. -/
def addUp (label : Nat) (x y z : Fin 8) : List Line :=
  [.andimm x x 0, .addimm z z 0] ++ skipIf false true false (label + 1)
    (.br false false true label ::
      (neg z ++ loop label [.add x x y, .addimm z z (-1)] true false true))

theorem addUp_closed (label : Nat) (x y z : Fin 8) : Closed (addUp label x y z) := by
  intro n e p i mem
  simp [addUp, skipIf, loop, neg] at mem ⊢
  omega

variable (globals) in
theorem addUp_runs (label : Nat) (xy : x ≠ y) (xz : x ≠ z) (yz : y ≠ z) (x6 : x ≠ 6) (z6 : z ≠ 6) :
    ∃ m', Executes globals (addUp label x y z) m m' ∧ m'.reg x = (m.reg z).abs * m.reg y ∧
      Changes [z, x] 0 m m' := by
  have stack : 6 ∉ [z, x] := by simp [x6.symm, z6.symm]
  obtain ⟨t, ran⟩ : ∃ t, run globals [.andimm x x 0, .addimm z z 0] m = t := ⟨_, rfl⟩
  have changes : Changes [z, x] 0 m t := by
    rw [← ran]
    exact run_changes rfl (by simp [Line.dest]) stack
  have tx : t.reg x = 0#16 := by
    rw [← ran]
    simp only [run_cons, run_nil, Line.effect, Machine.set_reg, if_neg xz, if_true]
    exact BitVec.and_zero
  have tz : t.reg z = m.reg z := by
    rw [← ran]
    simp only [run_cons, run_nil, Line.effect, Machine.set_reg, if_neg xz.symm, if_true, plus_zero]
  have ty : t.reg y = m.reg y := changes.kept y (by simp [xy.symm, yz])
  have last : t.last = m.reg z := by
    rw [← tz, ← ran]
    simp only [run_cons, run_nil, Line.effect, Machine.set_last, Machine.set_same]
  have looped : Closed (loop label [.add x x y, .addimm z z (-1)] true false true) :=
    closed_loop (closed_of_plain rfl)
  have closed : Closed (.br false false true label :: (neg z ++
      loop label [.add x x y, .addimm z z (-1)] true false true)) := by
    intro n e p i mem
    simp [loop, neg] at mem ⊢
    omega
  have fresh : .lab (label + 1) ∉ .br false false true label :: (neg z ++
      loop label [.add x x y, .addimm z z (-1)] true false true) := by
    simp [loop, neg]
  suffices inner : ∃ m',
    Executes globals (skipIf false true false (label + 1) (.br false false true label ::
      (neg z ++ loop label [.add x x y, .addimm z z (-1)] true false true))) t m' ∧
      m'.reg x = (m.reg z).abs * m.reg y ∧ Changes [z, x] 0 t m' by
    obtain ⟨m', executes, value, rest⟩ := inner
    refine ⟨m', ?_, value, changes.trans rest stack⟩
    exact Executes.after (c := [.andimm x x 0, .addimm z z 0]) rfl (ran ▸ executes)
      (closed_skipIf closed)
  by_cases zero : m.reg z = 0#16
  · refine ⟨t, .skipIf closed fresh (fun taken => ?_) fun _ => rfl, ?_, .refl t⟩
    · simp [last, zero] at taken
    · rw [tx, zero]
      exact BitVec.zero_mul.symm
  · suffices body : ∃ m', Executes globals (.br false false true label :: (neg z ++
        loop label [.add x x y, .addimm z z (-1)] true false true)) t m' ∧
        m'.reg x = (m.reg z).abs * m.reg y ∧ Changes [z, x] 0 t m' by
      obtain ⟨m', executes, rest⟩ := body
      refine ⟨m', .skipIf closed fresh (fun _ => executes) fun taken => ?_, rest⟩
      simp [last, zero] at taken
    have apart : Apart (neg z) (loop label [.add x x y, .addimm z z (-1)] true false true) :=
      apart_of_plain rfl _
    cases sign : (m.reg z).msb with
    | false =>
      obtain ⟨m', executes, value, rest⟩ := sum_loop globals label xy xz yz x6 z6 (tz ▸ zero)
      refine ⟨m', .jump ?_ executes looped apart, ?_, rest.mono (by simp) le_rfl⟩
      · simp [last, zero, sign]
      · rw [value, tx, tz, ty, BitVec.zero_add, BitVec.abs_eq, sign, if_neg Bool.false_ne_true]
    | true =>
      have negated : run globals (neg z) t = t.set z (-m.reg z) := by
        simp only [neg, run_cons, run_nil, Line.effect, Machine.set_same, Machine.set_set,
          neg_word, tz]
      obtain ⟨m', executes, value, rest⟩ :=
        sum_loop globals (m := t.set z (-m.reg z)) label xy xz yz
        x6 z6 (by rw [Machine.set_same]; exact BitVec.neg_ne_iff_ne_neg.mpr (by simpa using zero))
      have away : Changes [z, x] 0 t (t.set z (-m.reg z)) := by
        rw [← negated]
        exact run_changes rfl (by simp [neg, Line.dest]) stack
      refine ⟨m', .fall ?_ (.after rfl (negated ▸ executes) looped)
        ((closed_of_plain rfl).append looped), ?_,
        away.trans (rest.mono (by simp) le_rfl) stack⟩
      · simp [last, sign]
      · rw [value, Machine.set_reg, if_neg xz, Machine.set_same, Machine.set_reg, if_neg yz, tx, ty,
          BitVec.zero_add, BitVec.abs_eq, sign, if_pos rfl]

variable (globals) in
theorem signed_runs (label : Nat) (xz : x ≠ z) (x6 : x ≠ 6) {v : Word} (value : m.reg x = v) :
    ∃ m', Executes globals ([.addimm z z 0] ++ skipIf false true true label (neg x)) m m' ∧
      m'.reg x = (if (m.reg z).msb then -v else v) ∧ Changes [x] 0 m m' := by
  have closed : Closed (neg x) := closed_of_plain rfl
  have fresh : .lab label ∉ neg x := no_label rfl label
  have changes : Changes [x] 0 m (m.set z (m.reg z)) := .tested z
  have away : Changes [x] 0 (m.set z (m.reg z)) (run globals (neg x) (m.set z (m.reg z))) :=
    run_changes rfl (by simp [neg, Line.dest]) (by simp [x6.symm])
  cases sign : (m.reg z).msb with
  | false =>
    refine ⟨m.set z (m.reg z), .after rfl ?_ (closed_skipIf closed), ?_, changes⟩
    · rw [run_test]
      exact .skipIf closed fresh (fun taken => by simp [sign] at taken) fun _ => rfl
    · rw [Machine.set_reg, if_neg xz, value, if_neg Bool.false_ne_true]
  | true =>
    refine ⟨run globals (neg x) (m.set z (m.reg z)), .after rfl ?_ (closed_skipIf closed), ?_,
      changes.trans away (by simp [x6.symm])⟩
    · rw [run_test]
      exact .skipIf closed fresh
        (fun _ => executes_straight rfl) fun taken => by simp [sign] at taken
    · simp only [neg, run_cons, run_nil, Line.effect, Machine.set_same, Machine.set_set, neg_word,
        Machine.set_reg, if_neg xz, value, if_true]

end

theorem abs_product (a b : Word) : (if b.msb then -(b.abs * a) else b.abs * a) = a * b := by
  rw [BitVec.abs_eq]
  split
  · rw [BitVec.neg_mul, BitVec.neg_neg, BitVec.mul_comm]
  · rw [BitVec.mul_comm]

theorem mul_works (label : Nat) : Works (mul label) 1 (fun _ _ => True) fun a b => a * b := by
  have lines (x y z : Fin 8) : mul label x y z = (push z ++ addUp label x y z ++ pop z) ++
    ([.addimm z z 0] ++ skipIf false true true (label + 2) (neg x)) := rfl
  have first (x y z : Fin 8) : Closed (push z ++ addUp label x y z ++ pop z) :=
    ((closed_of_plain rfl).append (addUp_closed label x y z)).append (closed_of_plain rfl)
  have second (x z : Fin 8) :
      Closed ([.addimm z z 0] ++ skipIf false true true (label + 2) (neg x)) :=
    (closed_of_plain rfl).append (closed_skipIf (closed_of_plain rfl))
  refine ⟨fun x y z => lines x y z ▸ (first x y z).append (second x z),
    fun globals x y z m xy xz yz x6 y6 z6 _ => ?_⟩
  obtain ⟨u, inner, value, changes⟩ := addUp_runs globals (m := run globals (push z) m) label
    xy xz yz x6 z6
  rw [push_keeps z y z6 y6, push_keeps z z z6 z6] at value
  obtain ⟨t, saved, sum, changes'⟩ :=
    Computes.saved z6 xz x6 (by decide) (addUp_closed label x y z) inner
    value changes
  obtain ⟨m', signed, product, changes''⟩ := signed_runs globals (label + 2) xz x6 sum
  rw [changes'.kept z (by simp [xz.symm]), abs_product] at product
  have apart : Apart (push z ++ addUp label x y z ++ pop z)
      ([.addimm z z 0] ++ skipIf false true true (label + 2) (neg x)) := by
    intro i mem
    simp [skipIf, neg, addUp, loop, push, pop] at mem ⊢
    omega
  exact ⟨m', lines x y z ▸ saved.seq signed (first x y z) (second x z) apart, product,
    changes'.trans (changes''.mono (List.Subset.refl _) (Nat.zero_le 1)) (by simp [x6.symm])⟩

/-- Operands in two different registers are multiplied, wherever the product goes. -/
theorem multiplies (label : Nat) (dest left right : Temp) (different : left ≠ right) :
    ∃ code, emitBinary (mul label) dest left right = some code ∧ ∀ globals (m : Machine),
      Computes globals code 3 dest (m.reg left * m.reg right) m := by
  obtain ⟨code, emitted, computes⟩ := emitBinary_works (mul_works label) (by decide) dest left right
    fun taken => different taken.1
  exact ⟨code, emitted, fun globals m => computes globals m trivial⟩

theorem multiplies_into_left : ∃ code, emitBinary (mul 1) 2 2 3 = some code ∧
    ∀ globals (m : Machine),
    Computes globals code 3 2 (m.reg 2 * m.reg 3) m :=
  multiplies 1 ⟨2, by decide⟩ ⟨2, by decide⟩ ⟨3, by decide⟩ (by decide)

end LC3Tools.Emit
