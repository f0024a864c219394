import LC3Tools.Lcc.Operators

/-! Numbers that do not fit one instruction: as a chain of additions, and as a word among
the instructions that is jumped over. -/
namespace LC3Tools.Emit
open StateTransition

/-- `for(; i>far; i-=far) lc3_addimm(d,d,far); lc3_addimm(d,d,i);` and the same
downwards. The first line may take another register. -/
def addimms (d base : Fin 8) (far : Nat) [NeZero far] (sign i : Int) : List Line :=
  if far < i then .addimm d base (sign * far) :: addimms d d far sign (i - far)
  else [.addimm d base (sign * i)]
termination_by i.toNat
decreasing_by
  have := NeZero.pos far
  omega

/-- `BR #1`, the number, `LD` and `ADD`. -/
def constant (d base : Fin 8) (i : Int) : List Line := [.skip 1, .fill i, .ld d (-2), .add d base d]

section
variable {globals : String → Word} {m : Machine}

theorem run_addimms (d base : Fin 8) (far : Nat) [NeZero far] (sign i : Int) :
    run globals (addimms d base far sign i) m = m.set d
      (m.reg base + BitVec.ofInt 16 (sign * i)) := by
  fun_induction addimms d base far sign i generalizing m with
  | case1 base i above ih =>
    have whole : sign * far + sign * (i - far) = sign * i := by
      rw [← Int.mul_add]
      congr 1
      omega
    rw [run_cons, ih]
    simp only [Line.effect, Machine.set_set, Machine.set_same, BitVec.add_assoc,
      ← BitVec.ofInt_add, whole]
  | case2 base i near => rfl

theorem addimms_plain (d base : Fin 8) (far : Nat) [NeZero far] (sign i : Int) :
    (addimms d base far sign i).all Line.plain := by
  fun_induction addimms d base far sign i with
  | case1 base i above ih => exact ih
  | case2 base i near => rfl

theorem addimms_fits (d base : Fin 8) (far : Nat) [NeZero far] (sign i : Int) (positive : 0 < i)
    (narrow : ∀ n : Int, 0 < n → n ≤ far → -16 ≤ sign * n ∧ sign * n ≤ 15) :
    ∀ line ∈ addimms d base far sign i, line.Fits := by
  have step := NeZero.pos far
  fun_induction addimms d base far sign i with
  | case1 base i above ih =>
    intro line mem
    rcases List.mem_cons.mp mem with rfl | mem
    · exact narrow far (by omega) le_rfl
    · exact ih (by omega) line mem
  | case2 base i near =>
    intro line mem
    rw [List.mem_singleton] at mem
    subst mem
    exact narrow i positive (by omega)

theorem addimms_fits_up (d base : Fin 8) {i : Int} (positive : 0 < i) :
    ∀ line ∈ addimms d base 15 1 i, line.Fits :=
  addimms_fits d base 15 1 i positive fun n above below => by
    push_cast at below
    omega

theorem addimms_fits_down (d base : Fin 8) {i : Int} (positive : 0 < i) :
    ∀ line ∈ addimms d base 16 (-1) i, line.Fits :=
  addimms_fits d base 16 (-1) i positive fun n above below => by
    push_cast at below
    omega

theorem addimms_runs (d base : Fin 8) (far : Nat) [NeZero far] (sign i : Int) :
    Executes globals (addimms d base far sign i) m
      (m.set d (m.reg base + BitVec.ofInt 16 (sign * i))) := by
  rw [← run_addimms d base far sign i]
  exact executes_straight (all_straight (addimms_plain d base far sign i))

theorem constant_runs {d base : Fin 8} (apart : base ≠ d) (i : Int) :
    Executes globals (constant d base i) m (m.set d (m.reg base + BitVec.ofInt 16 i)) := by
  have sum : (Line.add d base d).effect globals (m.set d (BitVec.ofInt 16 i)) =
      m.set d (m.reg base + BitVec.ofInt 16 i) := by
    simp only [Line.effect, Machine.set_same, Machine.set_set, Machine.set_reg, if_neg apart]
  have skip : step globals (constant d base i) (.line 0, m) = some (.line 2, m) := rfl
  have load : step globals (constant d base i) (.line 2, m) =
      some (.line 3, m.set d (BitVec.ofInt 16 i)) := rfl
  have add : step globals (constant d base i) (.line 3, m.set d (BitVec.ofInt 16 i)) =
      some (.line 4, (Line.add d base d).effect globals (m.set d (BitVec.ofInt 16 i))) := rfl
  rw [← sum]
  exact executes_of_reaches (.head skip (.head load (.head add .refl)))

theorem constant_closed (d base : Fin 8) (i : Int) : Closed (constant d base i) := by
  intro n z p j mem
  simp [constant] at mem

theorem constant_fits (d base : Fin 8) (i : Int) :
    (∀ line ∈ constant d base i, line.Fits) ↔ -0x8000 ≤ i ∧ i ≤ 0xffff := by
  simp [constant, Line.Fits]

end

end LC3Tools.Emit
