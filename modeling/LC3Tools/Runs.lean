import Mathlib.Logic.Basic

/-! Runs of a partial labelled step function. A step that returns none is stuck,
and a run through it has no final state. Nothing here names a particular machine.
A condition is asked of each step that a run really takes, at the state where it
is taken, so the rules below never assume anything about unreachable states. -/
namespace LC3Tools.Runs

universe u v w

variable {S : Type u} {T : Type v} {A : Type w}

def run (step : S → A → Option S) : S → List A → Option S
  | s, [] => some s
  | s, a :: as => (step s a).bind fun s' => run step s' as

/-- Every step taken along the labels meets the condition where it starts. -/
def Throughout (step : S → A → Option S) (P : S → A → Prop) : S → List A → Prop
  | _, [] => True
  | s, a :: as => P s a ∧ ∀ s', step s a = some s' → Throughout step P s' as

@[simp] theorem run_nil (step : S → A → Option S) (s : S) : run step s [] = some s := rfl

theorem run_cons (step : S → A → Option S) (s : S) (a : A) (as : List A) :
    run step s (a :: as) = (step s a).bind fun s' => run step s' as := rfl

theorem run_cons_some {step : S → A → Option S} {s t : S} {a : A} {as : List A} :
    run step s (a :: as) = some t ↔ ∃ s', step s a = some s' ∧ run step s' as = some t := by
  simp only [run_cons, Option.bind_eq_some_iff]

theorem run_append (step : S → A → Option S) (s : S) (as bs : List A) :
    run step s (as ++ bs) = (run step s as).bind fun t => run step t bs := by
  induction as generalizing s with
  | nil => rfl
  | cons a as ih =>
    simp only [List.cons_append, run_cons, ih, Option.bind_assoc]

/-- An invariant kept by every step that meets the condition holds at the end of
every run whose steps all meet it. -/
theorem invariant {step : S → A → Option S} {P : S → A → Prop} {I : S → Prop}
    (preserved : ∀ s a s', I s → P s a → step s a = some s' → I s')
    {s t : S} {as : List A} (initial : I s) (good : Throughout step P s as)
    (ran : run step s as = some t) : I t := by
  induction as generalizing s with
  | nil =>
    cases Option.some.inj ran
    exact initial
  | cons a as ih =>
    obtain ⟨s', hs, hr⟩ := run_cons_some.mp ran
    exact ih (preserved s a s' initial good.1 hs) (good.2 s' hs) hr

end LC3Tools.Runs
