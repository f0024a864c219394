import LC3Tools.Lcc.Operators

/-! `/` and `%` between registers: a subtraction in a loop on the magnitudes, and the sign
afterwards. -/
namespace LC3Tools.Emit

/-- The sign of the result, from the operands as they were. -/
def signs (label : Nat) (x y z : Fin 8) : List Line :=
  [.addimm z z 0, .br false true true (label + 4), .addimm y y 0, .br false true true (label + 5),
    .br true false false label, .lab (label + 4), .addimm y y 0, .br false true true label,
    .lab (label + 5)] ++ neg x ++ [.lab label]

/-- What DIV+I and MOD+I share, around the loop. -/
def division (core : List Line) (label : Nat) (x y z : Fin 8) : List Line :=
  [.addimm z z 0, .br false true false label] ++ push y ++ push z ++
    [.andimm x x 0, .addimm y y 0, .br false true true (label + 1)] ++ neg y ++
    [.lab (label + 1), .addimm z z 0, .br true false false (label + 2)] ++ neg z ++ core ++
    pop z ++ pop y ++ signs label x y z

def divLoop (label : Nat) (x y z : Fin 8) : List Line :=
  [.lab (label + 2), .add y y z, .br true false false (label + 3), .addimm x x 1,
    .br true true true (label + 2), .lab (label + 3)]

def modLoop (label : Nat) (x y z : Fin 8) : List Line :=
  [.lab (label + 2), .add y y z, .br false true true (label + 2), .addimm x y 0] ++ subNegk x x z

/-- The case DIV+I. -/
def div (label : Nat) (x y z : Fin 8) : List Line := division (divLoop label x y z) label x y z

/-- The case MOD+I. -/
def mod (label : Nat) (x y z : Fin 8) : List Line := division (modLoop label x y z) label x y z

section
variable {globals : String → Word} {x y z : Fin 8} {m : Machine}

/-- From the first label of the sign on, where the divisor is not negative. -/
def signs4 (label : Nat) (x y : Fin 8) : List Line :=
  .lab (label + 4) :: ([.addimm y y 0] ++ skipIf false true true label (.lab (label + 5) :: neg x))

/-- From the second label on. -/
def signs5 (label : Nat) (x : Fin 8) : List Line := .lab (label + 5) :: (neg x ++ [.lab label])

theorem closed_signs5 (label : Nat) (x : Fin 8) : Closed (signs5 label x) := by
  intro n e p i mem
  simp [signs5, neg] at mem

theorem closed_signs4 (label : Nat) (x y : Fin 8) : Closed (signs4 label x y) := by
  intro n e p i mem
  simp [signs4, skipIf, neg] at mem ⊢
  omega

theorem run_neg (x : Fin 8) : run globals (neg x) m = m.set x (-m.reg x) := by
  simp only [neg, run_cons, run_nil, Line.effect, Machine.set_same, Machine.set_set, neg_word]

variable (globals) in
theorem signs5_runs (label : Nat) (x : Fin 8) :
    Executes globals (signs5 label x) m (m.set x (-m.reg x)) := by
  rw [← @run_neg globals]
  exact executes_straight rfl

variable (globals) in
theorem signs4_runs (label : Nat) (xy : x ≠ y) (x6 : x ≠ 6) {v : Word} (value : m.reg x = v) :
    ∃ m', Executes globals (signs4 label x y) m m' ∧
      m'.reg x = (if (m.reg y).msb then -v else v) ∧ Changes [x] 0 m m' := by
  have inner : Closed (.lab (label + 5) :: neg x) := (closed_label _).append (closed_of_plain rfl)
  have closed : Closed ([.addimm y y 0] ++ skipIf false true true label
    (.lab (label + 5) :: neg x)) :=
    (closed_of_plain rfl).append (closed_skipIf inner)
  have fresh : .lab label ∉ .lab (label + 5) :: neg x := by simp [neg]
  have fresh4 : .lab (label + 4) ∉ [.addimm y y 0] ++ skipIf false true true label
    (.lab (label + 5) :: neg x) := by
    simp [skipIf, neg]
  suffices branch : ∃ m',
    Executes globals (skipIf false true true label (.lab (label + 5) :: neg x))
      (m.set y (m.reg y)) m' ∧ m'.reg x = (if (m.reg y).msb then -v else v) ∧ Changes [x] 0 m m' by
    obtain ⟨m', executes, rest⟩ := branch
    rw [← @run_test globals] at executes
    exact ⟨m', .label (.after rfl executes (closed_skipIf inner)) closed fresh4, rest⟩
  have same : Changes [x] 0 m (m.set y (m.reg y)) := .tested y
  have kept : (m.set y (m.reg y)).reg x = v := by rw [Machine.set_reg, if_neg xy, value]
  cases sign : (m.reg y).msb with
  | false =>
    refine ⟨m.set y (m.reg y), .skipIf inner fresh (fun taken => ?_) fun _ => rfl, kept, same⟩
    simp [sign] at taken
  | true =>
    have negated : Executes globals (.lab (label + 5) :: neg x) (m.set y (m.reg y)) _ :=
      executes_straight rfl
    have away : Changes [x] 0 (m.set y (m.reg y))
      (run globals (.lab (label + 5) :: neg x) (m.set y (m.reg y))) := by
      rw [run_cons, Line.effect]
      exact run_changes rfl (by simp [neg, Line.dest]) (by simp [x6.symm])
    refine ⟨_, .skipIf inner fresh (fun _ => negated) (fun taken => ?_), ?_,
      same.trans away (by simp [x6.symm])⟩
    · simp [sign] at taken
    · rw [run_cons, Line.effect, run_neg, Machine.set_same, kept, if_pos rfl]

variable (globals) in
theorem signs_runs (label : Nat) (xy : x ≠ y) (xz : x ≠ z) (x6 : x ≠ 6) {v : Word}
    (value : m.reg x = v) :
    ∃ m', Executes globals (signs label x y z) m m' ∧
      m'.reg x = (if (m.reg z).msb = (m.reg y).msb then v else -v) ∧ Changes [x] 0 m m' := by
  have stack : 6 ∉ [x] := by simp [x6.symm]
  obtain ⟨t, set⟩ : ∃ t, m.set z (m.reg z) = t := ⟨_, rfl⟩
  have same : Changes [x] 0 m t := set ▸ .tested z
  have tx : t.reg x = v := by rw [← set, Machine.set_reg, if_neg xz, value]
  have ty : t.reg y = m.reg y := same.kept y (by simp [xy.symm])
  have last : t.last = m.reg z := by rw [← set, Machine.set_last]
  have closed : Closed (.br false true true (label + 4) ::
      ([.addimm y y 0, .br false true true (label + 5), .br true false false label] ++
        signs4 label x y)) := by
    intro n e p i mem
    simp [signs4, skipIf, neg] at mem ⊢
    omega
  suffices rest : ∃ m', Executes globals (.br false true true (label + 4) ::
      ([.addimm y y 0, .br false true true (label + 5), .br true false false label] ++
        signs4 label x y)) t m' ∧
      m'.reg x = (if (m.reg z).msb = (m.reg y).msb then v else -v) ∧ Changes [x] 0 t m' by
    obtain ⟨m', executes, result, changes⟩ := rest
    rw [← set, ← @run_test globals] at executes
    exact ⟨m', .after (c := [.addimm z z 0]) rfl executes closed, result, same.trans changes stack⟩
  cases signz : (m.reg z).msb with
  | false =>
    obtain ⟨m', executes, result, changes⟩ := signs4_runs globals label xy x6 tx
    refine ⟨m', .jump ?_ executes (closed_signs4 label x y) ?_, ?_, changes⟩
    · simp [last, signz]
    · intro i mem
      simp [skipIf, neg] at mem ⊢
    · rw [result, ty]
      cases (m.reg y).msb <;> rfl
  | true =>
    have again : Changes [x] 0 t (t.set y (t.reg y)) := .tested y
    have closed' : Closed
        (.br false true true (label + 5) :: .br true false false label :: signs4 label x y) := by
      intro n e p i mem
      simp [signs4, skipIf, neg] at mem ⊢
      omega
    suffices rest : ∃ m',
      Executes globals (.br false true true (label + 5) :: .br true false false label ::
        signs4 label x y) (t.set y (t.reg y)) m' ∧
        m'.reg x = (if true = (m.reg y).msb then v else -v) ∧ Changes [x] 0 t m' by
      obtain ⟨m', executes, result, changes⟩ := rest
      rw [← @run_test globals] at executes
      have tail : Closed ([.addimm y y 0] ++ .br false true true
        (label + 5) :: .br true false false label ::
          signs4 label x y) :=
        (closed_of_plain rfl).append closed'
      refine ⟨m', .fall ?_ (.after (c := [.addimm y y 0]) rfl executes closed') tail, result,
        changes⟩
      simp [last, signz]
    have kept : (t.set y (t.reg y)).reg x = v := by rw [Machine.set_reg, if_neg xy, tx]
    cases signy : (m.reg y).msb with
    | false =>
      have final := signs5_runs globals (m := t.set y (t.reg y)) label x
      refine ⟨_, .jump (c := [.br true false false label, .lab (label + 4), .addimm y y 0,
        .br false true true label]) ?_ final (closed_signs5 label x) ?_, ?_, again.trans ?_ stack⟩
      · simp [ty, signy]
      · intro i mem
        simp [neg] at mem ⊢
        omega
      · rw [Machine.set_same, kept]
        rfl
      · rw [← @run_neg globals]
        exact run_changes rfl (by simp [neg, Line.dest]) stack
    | true =>
      have final : Executes globals [.lab label] (t.set y (t.reg y)) (t.set y (t.reg y)) :=
        executes_straight rfl
      have fallen : Executes globals (.br true false false label :: signs4 label x y)
        (t.set y (t.reg y))
          (t.set y (t.reg y)) := by
        refine .jump (c := [.lab (label + 4), .addimm y y 0, .br false true true label,
          .lab (label + 5),
          .not x, .addimm x x 1]) ?_ final (closed_label label) ?_
        · simp [ty, signy]
        · intro i mem
          simp at mem ⊢
          omega
      refine ⟨_, .fall ?_ fallen ?_, kept, again⟩
      · simp [ty, signy]
      · intro n e p i mem
        simp [signs4, skipIf, neg] at mem ⊢
        omega

variable (globals) in
theorem abs_runs (label : Nat) (y : Fin 8) (y6 : y ≠ 6) :
    ∃ m', Executes globals ([.addimm y y 0] ++ skipIf false true true label (neg y)) m m' ∧
      m'.reg y = (m.reg y).abs ∧ Changes [y] 0 m m' := by
  have stack : 6 ∉ [y] := by simp [y6.symm]
  have closed : Closed (neg y) := closed_of_plain rfl
  have fresh : .lab label ∉ neg y := no_label rfl label
  have same : Changes [y] 0 m (m.set y (m.reg y)) := .tested y
  have away : Changes [y] 0 (m.set y (m.reg y)) (run globals (neg y) (m.set y (m.reg y))) :=
    run_changes rfl (by simp [neg, Line.dest]) stack
  cases sign : (m.reg y).msb with
  | false =>
    refine ⟨m.set y (m.reg y), .after rfl ?_ (closed_skipIf closed), ?_, same⟩
    · rw [run_test]
      exact .skipIf closed fresh (fun taken => by simp [sign] at taken) fun _ => rfl
    · rw [Machine.set_same, BitVec.abs_eq, sign, if_neg Bool.false_ne_true]
  | true =>
    refine ⟨run globals (neg y) (m.set y (m.reg y)), .after rfl ?_ (closed_skipIf closed), ?_,
      same.trans away stack⟩
    · rw [run_test]
      exact .skipIf closed fresh
        (fun _ => executes_straight rfl) fun taken => by simp [sign] at taken
    · rw [run_neg, Machine.set_same, Machine.set_same, BitVec.abs_eq, sign, if_pos rfl]

variable (globals) in
theorem enter_runs {i : Nat} {rest : List Line} (closed : Closed (.lab i :: rest)) (z6 : z ≠ 6) :
    ∃ t, t.reg z = -(m.reg z).abs ∧ Changes [z] 0 m t ∧
      ∀ m', Executes globals (.lab i :: rest) t m' →
        Executes globals ([.addimm z z 0] ++ .br true false false i :: (neg z ++ .lab i :: rest))
          m m' := by
  have stack : 6 ∉ [z] := by simp [z6.symm]
  have same : Changes [z] 0 m (m.set z (m.reg z)) := .tested z
  have apart : Apart (neg z) (.lab i :: rest) := apart_of_plain rfl _
  have whole : Closed (.br true false false i :: (neg z ++ .lab i :: rest)) := by
    intro n e p j mem
    rcases List.mem_cons.mp mem with branch | mem
    · cases branch
      simp
    · exact List.mem_cons_of_mem _ (Closed.append (closed_of_plain rfl) closed n e p j mem)
  cases sign : (m.reg z).msb with
  | true =>
    refine ⟨m.set z (m.reg z), ?_, same, fun m' executes => .after rfl ?_ whole⟩
    · rw [Machine.set_same, BitVec.abs_eq, sign, if_pos rfl, BitVec.neg_neg]
    · rw [run_test]
      exact .jump (by simp [sign]) executes closed apart
  | false =>
    refine ⟨run globals (neg z) (m.set z (m.reg z)), ?_,
      same.trans (run_changes rfl (by simp [neg, Line.dest]) stack) stack,
        fun m' executes => .after rfl ?_ whole⟩
    · rw [run_neg, Machine.set_same, Machine.set_same, BitVec.abs_eq, sign,
        if_neg Bool.false_ne_true]
    · rw [run_test]
      exact .fall (by simp [sign]) (.after rfl executes closed)
        (Closed.append (closed_of_plain rfl) closed)

end

/-- A loop on the magnitude of the dividend and the negated one of the divisor, with zero in
the register of the result. -/
structure Reduces (core : Nat → Fin 8 → Fin 8 → Fin 8 → List Line) (f : Word → Word → Word) :
    Prop where
  starts : ∀ label x y z, ∃ rest, core label x y z = .lab (label + 2) :: rest
  closed : ∀ label x y z, Closed (core label x y z)
  labels : ∀ label x y z i, .lab i ∈ core label x y z → i = label + 2 ∨ i = label + 3
  computes : ∀ globals label x y z (m : Machine) a b, x ≠ y → x ≠ z → y ≠ z → x ≠ 6 →
    y ≠ 6 → z ≠ 6 →
    b ≠ 0#16 → m.reg x = 0#16 → m.reg y = a → m.reg z = -b → a.toNat ≤ 2 ^ 15 → b.toNat ≤ 2 ^ 15 →
    ∃ m', Executes globals (core label x y z) m m' ∧ m'.reg x = f a b ∧ Changes [z, y, x] 0 m m'

theorem abs_toNat_le (a : Word) : a.abs.toNat ≤ 2 ^ 15 := by
  have high := BitVec.toInt_lt (x := a)
  have low := BitVec.le_toInt (x := a)
  rw [BitVec.toNat_abs]
  split
  · rename_i sign
    rw [BitVec.msb_eq_toNat, decide_eq_true_iff] at sign
    omega
  · rename_i sign
    rw [BitVec.msb_eq_toNat, decide_eq_true_iff] at sign
    omega

theorem abs_nonzero {a : Word} (nonzero : a ≠ 0#16) : a.abs ≠ 0#16 := by
  rw [BitVec.abs_eq]
  split
  · exact fun zero => nonzero (BitVec.neg_eq_zero_iff.mp zero)
  · exact nonzero

/-- Between the saves. -/
def magnitudes (core : List Line) (label : Nat) (x y z : Fin 8) : List Line :=
  [.andimm x x 0] ++ (([.addimm y y 0] ++ skipIf false true true (label + 1) (neg y)) ++
    ([.addimm z z 0] ++ .br true false false (label + 2) :: (neg z ++ core)))

section
variable {globals : String → Word} {core : Nat → Fin 8 → Fin 8 → Fin 8 → List Line}
  {f : Word → Word → Word} {label : Nat} {x y z : Fin 8} {m : Machine}

theorem entered_closed (reduces : Reduces core f) (label : Nat) (x y z : Fin 8) :
    Closed ([.addimm z z 0] ++ .br true false false
      (label + 2) :: (neg z ++ core label x y z)) := by
  obtain ⟨rest, lines⟩ := reduces.starts label x y z
  intro n e p i mem
  have inside := reduces.closed label x y z n e p i
  rw [lines] at mem inside ⊢
  simp [neg] at mem inside ⊢
  rcases mem with ⟨-, -, -, same⟩ | mem
  · exact .inl same
  · exact inside mem

theorem magnitudes_closed (reduces : Reduces core f) (label : Nat) (x y z : Fin 8) :
    Closed (magnitudes (core label x y z) label x y z) :=
  (closed_of_plain rfl).append ((Closed.append (closed_of_plain rfl)
    (closed_skipIf (closed_of_plain rfl))).append (entered_closed reduces label x y z))

variable (globals label) in
theorem magnitudes_runs (reduces : Reduces core f) (xy : x ≠ y) (xz : x ≠ z) (yz : y ≠ z)
    (x6 : x ≠ 6) (y6 : y ≠ 6) (z6 : z ≠ 6) (nonzero : m.reg z ≠ 0#16) :
    ∃ m', Executes globals (magnitudes (core label x y z) label x y z) m m' ∧
      m'.reg x = f (m.reg y).abs (m.reg z).abs ∧ Changes [z, y, x] 0 m m' := by
  have stack : 6 ∉ [z, y, x] := by simp [x6.symm, y6.symm, z6.symm]
  have zeroed : run globals [.andimm x x 0] m = m.set x 0#16 := by
    simp only [run_cons, run_nil, Line.effect]
    congr 1
    exact BitVec.and_zero
  have first : Changes [x] 0 m (m.set x 0#16) := by
    rw [← zeroed]
    exact run_changes rfl (by simp [Line.dest]) (by simp [x6.symm])
  obtain ⟨t, positive, dividend, second⟩ := abs_runs globals (m := m.set x 0#16) (label + 1) y y6
  obtain ⟨rest, lines⟩ := reduces.starts label x y z
  have closed := reduces.closed label x y z
  rw [lines] at closed
  obtain ⟨u, divisor, third, enter⟩ := enter_runs globals (m := t) closed z6
  have ux : u.reg x = 0#16 := by
    rw [third.kept x (by simp [xz]), second.kept x (by simp [xy]), Machine.set_same]
  have uy : u.reg y = (m.reg y).abs := by
    rw [third.kept y (by simp [yz]), dividend, first.kept y (by simp [xy.symm])]
  have uz : u.reg z = -(m.reg z).abs := by
    rw [divisor, second.kept z (by simp [yz.symm]), first.kept z (by simp [xz.symm])]
  obtain ⟨m', executes, value, last⟩ := reduces.computes globals label x y z u _ _ xy xz yz x6 y6 z6
    (abs_nonzero nonzero) ux uy uz (abs_toNat_le _) (abs_toNat_le _)
  have tail := enter m' (lines ▸ executes)
  rw [← lines] at tail
  have both := positive.seq tail
      (Closed.append (closed_of_plain rfl) (closed_skipIf (closed_of_plain rfl)))
    (entered_closed reduces label x y z) (by
      intro i mem
      have either : .lab i ∈ core label x y z := by simpa [neg] using mem
      have far := reduces.labels label x y z i either
      simp [skipIf, neg]
      omega)
  refine ⟨m', .after rfl (zeroed ▸ both) ?_, value, ?_⟩
  · exact (Closed.append (closed_of_plain rfl) (closed_skipIf (closed_of_plain rfl))).append
      (entered_closed reduces label x y z)
  · exact (((first.mono (by simp) le_rfl).trans (second.mono (by simp) le_rfl) stack).trans
      (third.mono (by simp) le_rfl) stack).trans last stack

/-- The operands are saved around the loop. -/
def reduced (core : List Line) (label : Nat) (x y z : Fin 8) : List Line :=
  push y ++ (push z ++ magnitudes core label x y z ++ pop z) ++ pop y

theorem division_eq (core : List Line) (label : Nat) (x y z : Fin 8) : division core label x y z =
    [.addimm z z 0] ++ .br false true false label ::
    (reduced core label x y z ++ signs label x y z) := by
  simp [division, reduced, magnitudes, skipIf]

theorem reduced_closed (reduces : Reduces core f) (label : Nat) (x y z : Fin 8) :
    Closed (reduced (core label x y z) label x y z) := by
  have inner : Closed (push z ++ magnitudes (core label x y z) label x y z ++ pop z) :=
    ((closed_of_plain rfl).append (magnitudes_closed reduces label x y z)).append
    (closed_of_plain rfl)
  exact ((closed_of_plain rfl).append inner).append (closed_of_plain rfl)

theorem signs_closed (label : Nat) (x y z : Fin 8) : Closed (signs label x y z) := by
  intro n e p i mem
  simp [signs, neg] at mem ⊢
  omega

variable (globals label) in
theorem reduced_runs (reduces : Reduces core f) (xy : x ≠ y) (xz : x ≠ z) (yz : y ≠ z)
    (x6 : x ≠ 6) (y6 : y ≠ 6) (z6 : z ≠ 6) (nonzero : m.reg z ≠ 0#16) :
    Computes globals (reduced (core label x y z) label x y z) 2 x
      (f (m.reg y).abs (m.reg z).abs) m := by
  obtain ⟨u, executes, value, changes⟩ := magnitudes_runs globals label
    (m := run globals (push z) (run globals (push y) m)) reduces xy xz yz x6 y6 z6
    (by rw [push_keeps z z z6 z6, push_keeps y z y6 z6]; exact nonzero)
  rw [push_keeps z y z6 y6, push_keeps z z z6 z6, push_keeps y y y6 y6,
    push_keeps y z y6 z6] at value
  obtain ⟨t, saved, changes', rest⟩ := Executes.saving z6 (by simp [x6.symm, y6.symm]) (by decide)
    (magnitudes_closed reduces label x y z) executes changes
  exact Computes.saved y6 xy x6 (by decide)
    (((closed_of_plain rfl).append (magnitudes_closed reduces label x y z)).append
      (closed_of_plain rfl))
    saved ((rest x xz x6).trans value) changes'

end

theorem division_works {core : Nat → Fin 8 → Fin 8 → Fin 8 → List Line} {f : Word → Word → Word}
    (reduces : Reduces core f) (label : Nat) :
    Works (fun x y z => division (core label x y z) label x y z) 2 (fun _ b => b ≠ 0#16)
      fun a b => if b.msb = a.msb then f a.abs b.abs else -f a.abs b.abs := by
  have tail (x y z : Fin 8) :
      Closed (reduced (core label x y z) label x y z ++ signs label x y z) :=
    (reduced_closed reduces label x y z).append (signs_closed label x y z)
  have closed (x y z : Fin 8) : Closed (.br false true false label ::
      (reduced (core label x y z) label x y z ++ signs label x y z)) := by
    intro n e p i mem
    rcases List.mem_cons.mp mem with branch | mem
    · cases branch
      simp [signs]
    · exact List.mem_cons_of_mem _ (tail x y z n e p i mem)
  refine ⟨fun x y z => ?_, fun globals x y z m xy xz yz x6 y6 z6 nonzero => ?_⟩
  · rw [division_eq]
    exact (closed_of_plain rfl).append (closed x y z)
  · have stack : 6 ∉ [x] := by simp [x6.symm]
    have same : Changes [x] 2 m (m.set z (m.reg z)) := .tested z
    have kept (i : Fin 8) (away : i ≠ x) : (m.set z (m.reg z)).reg i = m.reg i :=
      same.kept i (by simp [away])
    obtain ⟨t, executes, value, changes⟩ := reduced_runs globals label
      (m := m.set z (m.reg z)) reduces xy xz yz x6 y6 z6 (by rw [kept z xz.symm]; exact nonzero)
    obtain ⟨m', signed, result, changes'⟩ := signs_runs globals (z := z) label xy xz x6 value
    rw [changes.kept z (by simp [xz.symm]), changes.kept y (by simp [xy.symm]), kept y xy.symm,
      kept z xz.symm] at result
    have apart : Apart (reduced (core label x y z) label x y z) (signs label x y z) := by
      intro i mem inside
      have either : .lab i ∈ core label x y z ∨ i = label + 1 := by
        simpa [reduced, magnitudes, skipIf, neg, push, pop, or_comm] using inside
      have far := either.imp_left (reduces.labels label x y z i)
      simp [signs, neg] at mem
      omega
    rw [division_eq]
    refine ⟨m', .after rfl ?_ (closed x y z), result,
      (same.trans changes stack).trans (changes'.mono (List.Subset.refl _) (Nat.zero_le 2)) stack⟩
    rw [run_test]
    exact .fall (by rw [takes_z, Machine.set_last]; exact decide_eq_false nonzero)
      (executes.seq signed (reduced_closed reduces label x y z) (signs_closed label x y z) apart)
      (tail x y z)

/-! The loops. A dividend of 32768 has the sign bit set before the first subtraction, but
not after it. -/

section
variable {a b : Word}

theorem less_msb (low : a.toNat ≤ 2 ^ 15) (high : b.toNat ≤ 2 ^ 15) (positive : b ≠ 0#16) :
    (a + -b).msb = decide (a.toNat < b.toNat) := by
  have nonzero : 0 < b.toNat := Nat.pos_of_ne_zero fun zero => positive (BitVec.eq_of_toNat_eq zero)
  rw [BitVec.msb_eq_toNat, BitVec.toNat_add, BitVec.toNat_neg, decide_eq_decide]
  omega

theorem less_toNat (low : b.toNat ≤ a.toNat) : (a + -b).toNat = a.toNat - b.toNat := by
  have ha := a.isLt
  rw [BitVec.toNat_add, BitVec.toNat_neg]
  omega

end

section
variable {globals : String → Word} {x y z : Fin 8} {m : Machine} {a b : Word}

variable (globals) in
theorem run_subtracted (dividend : m.reg y = a) (divisor : m.reg z = -b) :
    run globals [.add y y z] m = m.set y (a + -b) := by
  simp only [run_cons, run_nil, Line.effect, dividend, divisor]

variable (globals) in
theorem div_loop (label : Nat) (xy : x ≠ y) (xz : x ≠ z) (yz : y ≠ z) (x6 : x ≠ 6) (y6 : y ≠ 6)
    (z6 : z ≠ 6)
    (dividend : m.reg y = a) (divisor : m.reg z = -b) (low : a.toNat ≤ 2 ^ 15)
    (high : b.toNat ≤ 2 ^ 15)
    (nonzero : b ≠ 0#16) :
    ∃ m', Executes globals (divLoop label x y z) m m' ∧
      m'.reg x = m.reg x + BitVec.ofNat 16 (a.toNat / b.toNat) ∧ Changes [z, y, x] 0 m m' := by
  have stack : 6 ∉ [z, y, x] := by simp [x6.symm, y6.symm, z6.symm]
  have positive : 0 < b.toNat := Nat.pos_of_ne_zero fun zero => nonzero (BitVec.eq_of_toNat_eq zero)
  have lines : divLoop label x y z =
    loopUntil (label + 2) (label + 3) [.add y y z] true false false [.addimm x x 1] := rfl
  rw [lines]
  induction size : a.toNat using Nat.strong_induction_on generalizing a m with
  | _ n ih =>
    subst size
    have ran := run_subtracted globals dividend divisor
    have sign := less_msb low high nonzero
    have changes : Changes [z, y, x] 0 m (m.set y (a + -b)) := by
      rw [← ran]
      exact run_changes rfl (by simp [Line.dest]) stack
    by_cases less : a.toNat < b.toNat
    · have leave := @loopUntil_leave globals m [.add y y z] [.addimm x x 1] (label + 2)
        (label + 3) true false false
        rfl rfl (by omega)
        (by rw [ran, takes_n, Machine.set_last, sign]; exact decide_eq_true less)
      rw [ran] at leave
      refine ⟨_, leave, ?_, changes⟩
      rw [Nat.div_eq_of_lt less, Machine.set_reg, if_neg xy]
      exact (BitVec.add_zero _).symm
    · have smaller := less_toNat (Nat.le_of_not_lt less)
      have counted : Changes [z, y, x] 0 m (run globals [.addimm x x 1] (m.set y (a + -b))) :=
        changes.trans (run_changes rfl (by simp [Line.dest]) stack) stack
      have dividend' : (run globals [.addimm x x 1] (m.set y (a + -b))).reg y = a + -b := by
        simp only [run_cons, run_nil, Line.effect, Machine.set_reg, if_neg xy.symm, if_true]
      have divisor' : (run globals [.addimm x x 1] (m.set y (a + -b))).reg z = -b := by
        simp only [run_cons, run_nil, Line.effect, Machine.set_reg, if_neg xz.symm, if_neg yz.symm,
          divisor]
      have below : (a + -b).toNat < a.toNat := by
        rw [smaller]
        omega
      obtain ⟨m', executes, value, last⟩ :=
        ih (a + -b).toNat below dividend' divisor' (Nat.le_trans (Nat.le_of_lt below) low) rfl
      rw [← ran] at executes
      refine ⟨m', loopUntil_again rfl rfl ?_ executes, ?_, counted.trans last stack⟩
      · rw [ran, takes_n, Machine.set_last, sign]
        exact decide_eq_false less
      · rw [value, smaller, Nat.div_eq_sub_div positive (Nat.le_of_not_lt less)]
        simp only [run_cons, run_nil, Line.effect, Machine.set_reg, if_neg xy, if_true]
        rw [Nat.add_comm, BitVec.ofNat_add, ← BitVec.add_assoc]
        rfl

variable (globals) in
theorem mod_loop (label : Nat) (yz : y ≠ z) (y6 : y ≠ 6)
    (dividend : m.reg y = a) (divisor : m.reg z = -b) (low : a.toNat ≤ 2 ^ 15)
    (high : b.toNat ≤ 2 ^ 15)
    (nonzero : b ≠ 0#16) :
    ∃ m', Executes globals (loop (label + 2) [.add y y z] false true true) m m' ∧
      m'.reg y = BitVec.ofNat 16 (a.toNat % b.toNat) + -b ∧ Changes [y] 0 m m' := by
  have stack : 6 ∉ [y] := by simp [y6.symm]
  have closed : Closed [.add y y z] := closed_of_plain rfl
  have fresh : .lab (label + 2) ∉ [Line.add y y z] := no_label rfl _
  induction size : a.toNat using Nat.strong_induction_on generalizing a m with
  | _ n ih =>
    subst size
    have ran := run_subtracted globals dividend divisor
    have sign := less_msb low high nonzero
    have changes : Changes [y] 0 m (m.set y (a + -b)) := by
      rw [← ran]
      exact run_changes rfl (by simp [Line.dest]) stack
    have body : Executes globals [.add y y z] m (m.set y (a + -b)) := by
      rw [← ran]
      exact executes_straight rfl
    by_cases less : a.toNat < b.toNat
    · refine ⟨_, loop_leave body closed fresh ?_, ?_, changes⟩
      · rw [takes_zp, Machine.set_last, sign, decide_eq_true less, Bool.not_true]
      · rw [Nat.mod_eq_of_lt less, Machine.set_same, BitVec.ofNat_toNat, BitVec.setWidth_eq]
    · have smaller := less_toNat (Nat.le_of_not_lt less)
      have positive : 0 < b.toNat :=
        Nat.pos_of_ne_zero fun zero => nonzero (BitVec.eq_of_toNat_eq zero)
      have below : (a + -b).toNat < a.toNat := by
        rw [smaller]
        omega
      have divisor' : (m.set y (a + -b)).reg z =
        -b := by rw [Machine.set_reg, if_neg yz.symm, divisor]
      obtain ⟨m', executes, value, last⟩ :=
        ih (a + -b).toNat below (Machine.set_same _ _ _) divisor'
        (Nat.le_trans (Nat.le_of_lt below) low) rfl
      refine ⟨m', loop_again body closed fresh ?_ executes, ?_, changes.trans last stack⟩
      · rw [takes_zp, Machine.set_last, sign, decide_eq_false less, Bool.not_false]
      · rw [value, smaller, Nat.mod_eq_sub_mod (Nat.le_of_not_lt less)]

end

theorem divLoop_reduces : Reduces divLoop fun a b => a / b := by
  refine ⟨fun label x y z => ⟨_, rfl⟩, fun label x y z => ?_, fun label x y z i mem => ?_,
    fun globals label x y z m a b xy xz yz x6 y6 z6 nonzero zero dividend divisor low high => ?_⟩
  · intro n e p i mem
    simp [divLoop] at mem ⊢
    omega
  · simpa [divLoop] using mem
  · obtain ⟨m', executes, value, changes⟩ :=
      div_loop globals label xy xz yz x6 y6 z6 dividend divisor low high nonzero
    refine ⟨m', executes, ?_, changes⟩
    rw [value, zero, BitVec.zero_add, BitVec.udiv_def]

theorem modLoop_reduces : Reduces modLoop fun a b => a % b := by
  have lines (label : Nat) (x y z : Fin 8) : modLoop label x y z =
    loop (label + 2) [.add y y z] false true true ++ ([.addimm x y 0] ++ subNegk x x z) := rfl
  have looped (label : Nat) (y z : Fin 8) :
    Closed (loop (label + 2) [.add y y z] false true true) :=
    closed_loop (closed_of_plain rfl)
  refine ⟨fun label x y z => ⟨_, rfl⟩, fun label x y z => ?_, fun label x y z i mem => ?_,
    fun globals label x y z m a b xy xz yz x6 y6 z6 nonzero zero dividend divisor low high => ?_⟩
  · rw [lines]
    exact (looped label y z).append (closed_of_plain rfl)
  · left
    simpa [modLoop, subNegk] using mem
  · obtain ⟨t, executes, value, changes⟩ :=
      mod_loop globals label yz y6 dividend divisor low high nonzero
    have stack : 6 ∉ [z, y, x] := by simp [x6.symm, y6.symm, z6.symm]
    have negated : t.reg z = -b := (changes.kept z (by simp [yz.symm])).trans divisor
    have last : Executes globals ([.addimm x y 0] ++ subNegk x x z) t _ := executes_straight rfl
    have apart : Apart (loop (label + 2) [.add y y z] false true true)
      ([.addimm x y 0] ++ subNegk x x z) := by
      intro i mem
      simp [subNegk] at mem
    refine ⟨_, lines label x y z ▸ executes.seq last (looped label y z)
      (closed_of_plain rfl) apart, ?_,
      (changes.mono (by simp) le_rfl).trans (run_changes rfl ?_ stack) stack⟩
    · simp only [subNegk, List.cons_append, List.nil_append, run_cons, run_nil, Line.effect,
        Machine.set_same,
        Machine.set_reg, if_neg xz, if_neg xz.symm, value, negated, plus_zero, neg_word,
          BitVec.neg_neg]
      rw [BitVec.add_assoc, BitVec.add_left_neg, BitVec.add_zero]
      apply BitVec.eq_of_toNat_eq
      rw [BitVec.toNat_ofNat, BitVec.toNat_umod]
      have := Nat.mod_le a.toNat b.toNat
      omega
    · simp [subNegk, Line.dest]

/-! The operations, against the truncated division of integers. -/

inductive Division where
  | DIV | MOD
  deriving DecidableEq, Repr

def Division.emit (label : Nat) (dest left right : Fin 8) : Division → Option (List Line)
  | .DIV => emitBinary (div label) dest left right
  | .MOD => emitBinary (mod label) dest left right

def Division.value (a b : Word) : Division → Word
  | .DIV => BitVec.ofInt 16 (a.toInt.tdiv b.toInt)
  | .MOD => BitVec.ofInt 16 (a.toInt.tmod b.toInt)

theorem signed_quotient (a b : Word) : (if b.msb = a.msb then a.abs / b.abs else -(a.abs / b.abs)) =
    BitVec.ofInt 16 (a.toInt.tdiv b.toInt) := by
  have signed : (if b.msb = a.msb then a.abs / b.abs else -(a.abs / b.abs)) = a.sdiv b := by
    unfold BitVec.sdiv
    rw [BitVec.abs_eq, BitVec.abs_eq]
    cases a.msb <;> cases b.msb <;> rfl
  rw [signed]
  apply BitVec.eq_of_toInt_eq
  rw [BitVec.toInt_sdiv, BitVec.toInt_ofInt]

theorem remainder_eq (a b : Word) : BitVec.ofInt 16 (a.toInt.tmod b.toInt) = a.srem b := by
  apply BitVec.eq_of_toInt_eq
  rw [BitVec.toInt_ofInt, ← BitVec.toInt_srem, BitVec.toInt_bmod_cancel]

theorem signed_remainder (a b : Word) :
    (if b.msb = a.msb then a.abs % b.abs else -(a.abs % b.abs)) =
    if b.msb then -a.srem b else a.srem b := by
  unfold BitVec.srem
  rw [BitVec.abs_eq, BitVec.abs_eq]
  cases a.msb <;> cases b.msb <;> simp

theorem remainder_right_iff {a b : Word} (nonzero : b ≠ 0#16) :
    (if b.msb = a.msb then a.abs % b.abs else -(a.abs % b.abs)) =
      BitVec.ofInt 16 (a.toInt.tmod b.toInt) ↔
      0 < b.toInt ∨ b.toInt ∣ a.toInt := by
  rw [remainder_eq, signed_remainder]
  have other : b.toInt ≠ 0 := fun zero => nonzero (BitVec.eq_of_toInt_eq zero)
  cases sign : b.msb with
  | false =>
    rw [BitVec.msb_eq_toInt, decide_eq_false_iff_not] at sign
    exact iff_of_true (if_neg Bool.false_ne_true) (.inl (by omega))
  | true =>
    rw [BitVec.msb_eq_toInt, decide_eq_true_iff] at sign
    have small : (a.toInt.tmod b.toInt).natAbs < b.toInt.natAbs := by
      rw [Int.natAbs_tmod]
      exact Nat.mod_lt _ (by omega)
    have low := BitVec.le_toInt (x := b)
    have value : (-a.srem b).toInt = -(a.toInt.tmod b.toInt) := by
      rw [BitVec.toInt_neg, BitVec.toInt_srem, Int.bmod_eq_of_le] <;> omega
    rw [if_pos rfl, ← BitVec.toInt_inj, value, BitVec.toInt_srem, Int.dvd_iff_tmod_eq_zero]
    omega

/-- The code of the operation leaves its value in the destination, from every state with
the operands in their registers. -/
def Division.Correct (op : Division) (label : Nat) (dest left right : Fin 8) (a b : Word) : Prop :=
  ∃ code, op.emit label dest left right = some code ∧ ∀ globals (m : Machine),
    m.reg left = a → m.reg right = b → Computes globals code 4 dest (op.value a b) m

/-- Every quotient is right, and a remainder where the divisor is positive or leaves none. -/
theorem division_correct_iff (op : Division) (label : Nat) (dest left right : Temp)
    (different : left ≠ right) {a b : Word} (nonzero : b ≠ 0#16) :
    op.Correct label dest left right a b ↔ op = .DIV ∨ 0 < b.toInt ∨ b.toInt ∣ a.toInt := by
  cases op with
  | DIV =>
    exact (emitBinary_computes_iff (division_works divLoop_reduces label)
      (by decide) dest left right
      different nonzero _).trans (iff_of_true (signed_quotient a b) (.inl rfl))
  | MOD =>
    have computes_iff : Division.Correct .MOD label dest left right a b ↔ _ :=
      emitBinary_computes_iff (division_works modLoop_reduces label)
        (by decide) dest left right different
        nonzero _
    exact (computes_iff.trans (remainder_right_iff nonzero)).trans
      ⟨.inr, fun either => either.resolve_left fun same => by cases same⟩

theorem seven_by_two : Division.Correct .MOD 1 0 1 2 7 2 ↔
    Division.MOD = .DIV ∨ 0 < (2 : Word).toInt ∨ (2 : Word).toInt ∣ (7 : Word).toInt :=
  division_correct_iff .MOD 1 ⟨0, by decide⟩ ⟨1, by decide⟩ ⟨2, by decide⟩ (by decide) (by decide)

theorem seven_by_minus_two : ¬ Division.Correct .MOD 1 0 1 2 7 (-2) := by
  have computed := emitBinary_computes_iff (division_works modLoop_reduces 1) (by decide)
    ⟨0, by decide⟩
    ⟨1, by decide⟩ ⟨2, by decide⟩ (by decide) (a := 7) (b := -2) (by decide)
    (BitVec.ofInt 16 ((7 : Word).toInt.tmod (-2 : Word).toInt))
  exact fun correct => absurd (computed.mp correct) (by decide)

end LC3Tools.Emit
