import LC3Tools.Lcc.Operators

/-! `|`, `^`, `-` and `<<` between registers. -/
namespace LC3Tools.Emit

/-- The case BOR+I. -/
def bor (x y z : Fin 8) : List Line :=
  push y ++ push z ++ [.not y, .not z, .and x y z, .not x] ++ pop z ++ pop y

/-- The case BXOR+I. -/
def bxor (x y z : Fin 8) : List Line :=
  push y ++ [.addimm x z 0, .not x, .and x x y, .not y, .and y y z, .not x, .not y, .and x x y,
    .not x] ++
    pop y

/-- The cases SUB+I, SUB+P and SUB+U. -/
def sub (x y z : Fin 8) : List Line := push z ++ neg z ++ [.add x y z] ++ pop z

/-- The case LSH+I. -/
def lsh (label : Nat) (x y z : Fin 8) : List Line :=
  push z ++ [.addimm x y 0, .addimm z z 0, .br false true false (label + 1), .lab label,
    .add x x x, .addimm z z (-1), .br true false true label, .lab (label + 1)] ++ pop z

theorem bor_works : Works bor 2 (fun _ _ => True) fun a b => a ||| b := by
  refine ⟨fun x y z => closed_of_plain rfl, fun globals x y z m xy xz yz x6 y6 z6 _ => ?_⟩
  have inner : Executes globals [.not y, .not z, .and x y z, .not x]
      (run globals (push z) (run globals (push y) m)) _ := executes_straight rfl
  have changes : Changes [z, y, x] 0 (run globals (push z) (run globals (push y) m))
      (run globals [.not y, .not z, .and x y z, .not x]
        (run globals (push z) (run globals (push y) m))) :=
    run_changes rfl (by simp [Line.dest]) (by simp [x6.symm, y6.symm, z6.symm])
  obtain ⟨t, saved, changes', rest⟩ := Executes.saving z6 (by simp [x6.symm, y6.symm]) (by decide)
    (closed_of_plain rfl) inner changes
  have computes := Computes.saved (v := m.reg y ||| m.reg z) y6 xy x6 (by decide)
    (closed_of_plain rfl) saved
    ?_ changes'
  · simpa only [bor, List.append_assoc] using computes
  · rw [rest x xz x6]
    simp only [run_cons, run_nil, Line.effect, Machine.set_reg, if_true, if_neg yz, if_neg yz.symm,
      if_neg xy, if_neg xz, push_keeps z y z6 y6, push_keeps z z z6 z6,
      push_keeps y y y6 y6, push_keeps y z y6 z6]
    rw [BitVec.not_and, BitVec.not_not, BitVec.not_not]

theorem bxor_works : Works bxor 1 (fun _ _ => True) fun a b => a ^^^ b := by
  refine ⟨fun x y z => closed_of_plain rfl, fun globals x y z m xy xz yz x6 y6 z6 _ => ?_⟩
  refine Computes.saved y6 xy x6 (by decide) (closed_of_plain rfl) (executes_straight rfl) ?_
    (run_changes rfl (by simp [Line.dest]) (by simp [x6.symm, y6.symm]))
  simp only [run_cons, run_nil, Line.effect, Machine.set_reg, if_true, if_neg yz.symm, if_neg xy,
    if_neg xy.symm, if_neg xz.symm, push_keeps y y y6 y6, push_keeps y z y6 z6,
    plus_zero]
  generalize m.reg y = a
  generalize m.reg z = b
  ext i
  simp only [BitVec.getElem_not, BitVec.getElem_and, BitVec.getElem_xor]
  cases a[i] <;> cases b[i] <;> rfl

theorem sub_works : Works sub 1 (fun _ _ => True) fun a b => a - b := by
  refine ⟨fun x y z => closed_of_plain rfl, fun globals x y z m xy xz yz x6 y6 z6 _ => ?_⟩
  have inner : Executes globals (neg z ++ [.add x y z]) (run globals (push z) m) _ :=
    executes_straight rfl
  have computes := Computes.saved (v := m.reg y - m.reg z) z6 xz x6 (by decide)
    (closed_of_plain rfl)
    inner ?_ (run_changes rfl (by simp [neg, Line.dest]) (by simp [x6.symm, z6.symm]))
  · simpa only [sub, List.append_assoc] using computes
  · simp only [neg, List.cons_append, List.nil_append, run_cons, run_nil, Line.effect,
      Machine.set_same, Machine.set_set, Machine.set_reg, if_neg yz, neg_word,
      push_keeps z y z6 y6, push_keeps z z z6 z6, BitVec.sub_eq_add_neg]

/-- The loop that doubles one register as often as another one counts. -/
def doubling (again done : Nat) (x z : Fin 8) : List Line :=
  [.addimm z z 0, .br false true false done, .lab again, .add x x x, .addimm z z (-1),
    .br true false true again, .lab done]

theorem doubling_closed (again done : Nat) (x z : Fin 8) : Closed (doubling again done x z) := by
  intro n e p i mem
  simp [doubling] at mem ⊢
  omega

/-- With j passes left, the register has been doubled for each pass made. -/
structure Doubled (x z : Fin 8) (m : Machine) (j : Nat) (s : Machine) : Prop where
  count : s.reg z = BitVec.ofNat 16 j
  within : j ≤ (m.reg z).toNat
  value : s.reg x = m.reg x <<< ((m.reg z).toNat - j)
  changes : Changes [x, z] 0 m s

theorem doubled_pass {globals : String → Word} {x z : Fin 8} (apart : x ≠ z) (x6 : x ≠ 6)
    (z6 : z ≠ 6)
    {m s : Machine} {j : Nat} (doubled : Doubled x z m (j + 1) s) :
    Doubled x z m j (run globals ([.add x x x] ++ [.addimm z z (-1)]) s) := by
  have stack : 6 ∉ [x, z] := by simp [x6.symm, z6.symm]
  have once : (m.reg z).toNat - j = (m.reg z).toNat - (j + 1) + 1 := by
    have := doubled.within
    omega
  refine ⟨?_, Nat.le_of_succ_le doubled.within, ?_, doubled.changes.trans ?_ stack⟩
  · simp only [List.cons_append, List.nil_append, run_cons, run_nil, Line.effect, Machine.set_same,
      Machine.set_reg, if_neg apart.symm, doubled.count, minus_one,
      ofNat_pred]
  · simp only [List.cons_append, List.nil_append, run_cons, run_nil, Line.effect, Machine.set_same,
      Machine.set_reg, if_neg apart, doubled.value, once]
    rw [BitVec.shiftLeft_add, BitVec.shiftLeft_eq_mul_twoPow _ 1]
    bv_omega
  · exact run_changes rfl (by simp [Line.dest]) stack

theorem doubling_runs (globals : String → Word) {again done : Nat} (different : again ≠ done)
    {x z : Fin 8} (apart : x ≠ z) (x6 : x ≠ 6) (z6 : z ≠ 6) (m : Machine) :
    ∃ m', Executes globals (doubling again done x z) m m' ∧
      m'.reg x = m.reg x <<< (m.reg z).toNat ∧ Changes [x, z] 0 m m' := by
  have same : Changes [x, z] 0 m (m.set z (m.reg z)) := .tested z
  have closed : Closed (loop again ([.add x x x] ++ [.addimm z z (-1)]) true false true) :=
    closed_loop (closed_of_plain rfl)
  have fresh : .lab done ∉ loop again ([.add x x x] ++ [.addimm z z (-1)]) true false true := by
    simp [loop, different.symm]
  have whole {m' : Machine} (executes : Executes globals (skipIf false true false done
      (loop again ([.add x x x] ++ [.addimm z z (-1)]) true false true)) (m.set z (m.reg z)) m') :
      Executes globals (doubling again done x z) m m' := by
    have lines : doubling again done x z = [.addimm z z 0] ++ skipIf false true false done
      (loop again ([.add x x x] ++ [.addimm z z (-1)]) true false true) := rfl
    rw [← run_test] at executes
    rw [lines]
    exact Executes.after rfl executes (closed_skipIf closed)
  obtain ⟨k, count⟩ : ∃ k, (m.reg z).toNat = k := ⟨_, rfl⟩
  cases k with
  | zero =>
    have zero : m.reg z = 0#16 := BitVec.eq_of_toNat_eq count
    refine ⟨m.set z (m.reg z), whole (.skipIf closed fresh (fun taken => ?_) fun _ => rfl),
      ?_, same⟩
    · rw [takes_z, Machine.set_last, zero] at taken
      cases taken
    · rw [Machine.set_reg, if_neg apart, count, BitVec.shiftLeft_zero]
  | succ k =>
    have bound : k + 1 < 2 ^ 16 := count ▸ (m.reg z).isLt
    have start : Doubled x z m (k + 1) (m.set z (m.reg z)) := by
      refine ⟨?_, Nat.le_of_eq count.symm, ?_, same⟩
      · rw [Machine.set_same, ← count, BitVec.ofNat_toNat, BitVec.setWidth_eq]
      · rw [Machine.set_reg, if_neg apart, count, Nat.sub_self, BitVec.shiftLeft_zero]
    obtain ⟨m', executes, final⟩ := loop_countdown globals (i := again) [.add x x x] rfl
      (Doubled x z m) (fun j s doubled => doubled.count)
      (fun j s doubled => doubled_pass apart x6 z6 doubled)
      k (by omega) start
    refine ⟨m', whole (.skipIf closed fresh (fun _ => executes) fun taken => ?_), final.value,
      final.changes⟩
    rw [takes_z, Machine.set_last, decide_eq_true_iff] at taken
    rw [taken] at count
    cases count

theorem lsh_works (label : Nat) : Works (lsh label) 1 (fun _ _ => True)
    fun a b => BitVec.ofNat 16 (a.toNat * 2 ^ b.toNat) := by
  have lines (x y z : Fin 8) : lsh label x y z =
    push z ++ ([.addimm x y 0] ++ doubling label (label + 1) x z) ++ pop z := rfl
  have closed (x y z : Fin 8) : Closed ([.addimm x y 0] ++ doubling label (label + 1) x z) :=
    (closed_of_plain rfl).append (doubling_closed _ _ _ _)
  refine ⟨fun x y z => ?_, fun globals x y z m xy xz yz x6 y6 z6 _ => ?_⟩
  · rw [lines]
    exact ((closed_of_plain rfl).append (closed x y z)).append (closed_of_plain rfl)
  · have stack : 6 ∉ [z, x] := by simp [x6.symm, z6.symm]
    have copy : Changes [z, x] 0 (run globals (push z) m)
      (run globals [.addimm x y 0] (run globals (push z) m)) :=
      run_changes rfl (by simp [Line.dest]) stack
    obtain ⟨m', executes, value, changes⟩ :=
      doubling_runs globals (Nat.ne_of_lt (Nat.lt_succ_self label)) xz
      x6 z6 (run globals [.addimm x y 0] (run globals (push z) m))
    have inner := Executes.after rfl executes (doubling_closed label (label + 1) x z)
    rw [lines]
    refine Computes.saved z6 xz x6 (by decide) (closed x y z) inner ?_
      (copy.trans (changes.mono (by simp) le_rfl) stack)
    have left : (run globals [.addimm x y 0] (run globals (push z) m)).reg x = m.reg y := by
      simp only [run_cons, run_nil, Line.effect, Machine.set_same, plus_zero, push_keeps z y z6 y6]
    have right : (run globals [.addimm x y 0] (run globals (push z) m)).reg z = m.reg z := by
      simp only [run_cons, run_nil, Line.effect, Machine.set_reg, if_neg xz.symm,
        push_keeps z z z6 z6]
    rw [value, left, right]
    apply BitVec.eq_of_toNat_eq
    rw [BitVec.toNat_shiftLeft, BitVec.toNat_ofNat, Nat.shiftLeft_eq]

/-- The operators of nodes for which such code is emitted. -/
inductive Operator where
  | BOR | BXOR | SUB | LSH
  deriving DecidableEq, Repr

/-- `emit2` of the node. Without a case of its own a node falls to the default, which
prints a comment. -/
def Operator.emit (label : Nat) (dest left right : Fin 8) : Operator → Suffix → Option (List Line)
  | .BOR, .I => emitBinary bor dest left right
  | .BXOR, .I => emitBinary bxor dest left right
  | .SUB, _ => emitBinary sub dest left right
  | .LSH, .I => emitBinary (lsh label) dest left right
  | _, .U => some []

def Operator.value (a b : Word) : Operator → Word
  | .BOR => a ||| b
  | .BXOR => a ^^^ b
  | .SUB => a - b
  | .LSH => BitVec.ofNat 16 (a.toNat * 2 ^ b.toNat)

/-- Code is emitted, and leaves the value in the destination from every state. -/
def Operator.Correct (op : Operator) (suffix : Suffix) (label : Nat) (dest left right : Fin 8) :
    Prop :=
  ∃ code, op.emit label dest left right suffix = some code ∧ ∀ globals (m : Machine),
    Computes globals code 4 dest (op.value (m.reg left) (m.reg right)) m

/-- The node has a case, and the loop for a second copy of an operand stops at once. -/
def Operator.Emitted (op : Operator) (suffix : Suffix) (dest left right : Fin 8) : Prop :=
  match op, suffix with
  | .SUB, _ | _, .I => ¬ (left = right ∧ (dest = 0 ∨ left = 0))
  | .BOR, .U => dest = left ∧ dest = right
  | _, .U => False

theorem computes_nil {globals : String → Word} {n : Nat} {dest : Fin 8} {v : Word} {m : Machine} :
    Computes globals [] n dest v m ↔ m.reg dest = v := by
  constructor
  · rintro ⟨m', executes, result, -⟩
    have same := congrArg Prod.snd (executes.unique executes_nil)
    rw [← result, show m' = m from same]
  · exact fun result => ⟨m, executes_nil, result, .refl m⟩

theorem binary_correct_iff {core : Fin 8 → Fin 8 → Fin 8 → List Line} {n : Nat}
    {f : Word → Word → Word}
    (works : Works core n (fun _ _ => True) f) (small : n ≤ 2) (dest left right : Temp) :
    (∃ code, emitBinary core dest left right = some code ∧ ∀ globals (m : Machine),
      Computes globals code 4 dest (f (m.reg left) (m.reg right)) m) ↔
    ¬ (left.1 = right.1 ∧ (dest.1 = 0 ∨ left.1 = 0)) := by
  constructor
  · rintro ⟨code, emitted, -⟩ ⟨same, taken⟩
    rw [emitBinary, same, prologue_undefined (same ▸ taken)] at emitted
    cases emitted
  · intro defined
    obtain ⟨code, emitted, computes⟩ := emitBinary_works works (by omega) dest left right
      (fun h => defined ⟨congrArg Subtype.val h.1, h.2⟩)
    exact ⟨code, emitted, fun globals m => (computes globals m trivial).mono (by omega)⟩

/-- Nothing is emitted, so the destination has to hold the value already. -/
theorem comment_correct_iff (f : Word → Word → Word) (dest left right : Fin 8) :
    (∃ code, some [] = some code ∧ ∀ globals (m : Machine),
      Computes globals code 4 dest (f (m.reg left) (m.reg right)) m) ↔
    ∀ m : Machine, m.reg dest = f (m.reg left) (m.reg right) := by
  constructor
  · rintro ⟨code, emitted, computes⟩ m
    cases emitted
    exact computes_nil.mp (computes (fun _ => 0) m)
  · exact fun same => ⟨[], rfl, fun globals m => computes_nil.mpr (same m)⟩

/-- Exactly these nodes are computed in the registers allocated to them. -/
theorem operator_correct_iff (op : Operator) (suffix : Suffix) (label : Nat)
    (dest left right : Temp) :
    op.Correct suffix label dest left right ↔ op.Emitted suffix dest left right := by
  cases op with
  | SUB =>
    have iff := binary_correct_iff sub_works (by decide) dest left right
    cases suffix <;> exact iff
  | BOR =>
    cases suffix with
    | I => exact binary_correct_iff bor_works le_rfl dest left right
    | U =>
      refine (comment_correct_iff (· ||| ·) dest left right).trans ⟨fun same => ?_, ?_⟩
      · have held := same ⟨fun i => if i = dest then 0 else 1, fun _ => 0, 0⟩
        simp only [if_true] at held
        by_contra other
        rw [Operator.Emitted, not_and_or] at other
        by_cases onLeft : left.1 = dest
        · have onRight : right.1 ≠ dest := fun h => other.elim (absurd onLeft.symm) (absurd h.symm)
          rw [if_pos onLeft, if_neg onRight] at held
          exact absurd held (by decide)
        · rw [if_neg onLeft] at held
          split at held <;> exact absurd held (by decide)
      · rintro ⟨onLeft, onRight⟩ m
        rw [← onLeft, ← onRight, BitVec.or_self]
  | BXOR =>
    cases suffix with
    | I => exact binary_correct_iff bxor_works (by decide) dest left right
    | U =>
      refine (comment_correct_iff (· ^^^ ·) dest left right).trans ⟨fun same => ?_, False.elim⟩
      have held : (1 : Word) = 1 ^^^ 1 := same ⟨fun _ => 1, fun _ => 0, 0⟩
      exact absurd held (by decide)
  | LSH =>
    cases suffix with
    | I => exact binary_correct_iff (lsh_works label) (by decide) dest left right
    | U =>
      refine (comment_correct_iff (fun a b => BitVec.ofNat 16 (a.toNat * 2 ^ b.toNat))
        dest left right).trans
        ⟨fun same => ?_, False.elim⟩
      have held : (1 : Word) = BitVec.ofNat 16 2 := same ⟨fun _ => 1, fun _ => 0, 0⟩
      exact absurd held (by decide)

theorem or_of_one_register : ¬ Operator.Correct .BOR .I 0 0 1 1 := by
  rintro ⟨code, emitted, -⟩
  cases emitted

end LC3Tools.Emit
