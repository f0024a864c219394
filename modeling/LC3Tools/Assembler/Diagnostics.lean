import LC3Tools.Assembler.SecondPass

/-! Diagnostics and the exit status. `main` decides the status by `num_errors`, so a
diagnostic makes the run fail only where the code that shows it also counts it. -/
namespace LC3Tools.Assembler
open Flex

variable {b : Build}

def Diagnostic.isWarning (d : Diagnostic) : Bool := (bytes "WARNING").isPrefixOf d.text

/-- The exit status of `main`. Where the assembler reads past its text there is none
that the source determines. -/
def Outcome.status : Outcome b → Option Nat
  | .ok _ => some 0
  | .failed _ => some 1
  | .undefined => none

def Outcome.stderr : Outcome b → List Diagnostic
  | .ok s | .failed s => s.stderr
  | .undefined => []

/-- The diagnostics of a step are warnings, or the step counts an error. -/
structure Told (s s' : AsmState b) : Prop where
  errors : s.numErrors ≤ s'.numErrors
  shown : ∃ ds, s'.stderr = s.stderr ++ ds ∧
    (s'.numErrors = s.numErrors → ∀ d ∈ ds, d.isWarning)

namespace Told
variable {s s' s'' : AsmState b}

theorem quiet (errors : s'.numErrors = s.numErrors) (stderr : s'.stderr = s.stderr) : Told s s' :=
  ⟨errors.ge, [], by rw [stderr, List.append_nil], by simp⟩

theorem trans (first : Told s s') (second : Told s' s'') : Told s s'' := by
  obtain ⟨errors, ds, shown, warned⟩ := first
  obtain ⟨errors', es, shown', warned'⟩ := second
  refine ⟨by omega, ds ++ es, by rw [shown', shown, List.append_assoc], ?_⟩
  intro same d inside
  rcases List.mem_append.mp inside with inside | inside
  · exact warned (by omega) d inside
  · exact warned' (by omega) d inside

theorem ofError (m : List Byte) : Told s (countError s m) :=
  ⟨Nat.le_succ _, [⟨s.lineNum, m⟩], rfl, fun same => absurd same (Nat.succ_ne_self _)⟩

theorem newLine (told : Told s s') : Told s (newInstLine s') := told.trans (quiet rfl rfl)

end Told

theorem writeValue_told {s s' : AsmState b} {val : BitVec 64} (ok : writeValue s val = .ok s') :
    Told s s' := by
  simp only [writeValue] at ok
  split at ok
  · cases ok
  · split at ok
    · cases ok
      exact .quiet rfl rfl
    · split at ok <;> cases ok <;> exact .quiet rfl rfl

theorem Pieces.told {s s' : AsmState b} (pieces : Pieces s s') : Told s s' := by
  induction pieces with
  | refl => exact .quiet rfl rfl
  | tail _ piece ih =>
    cases piece with
    | error m => exact ih.trans (.ofError _)
    | line k => exact ih.trans (.quiet rfl rfl)
    | value ok => exact ih.trans (writeValue_told ok)

end LC3Tools.Assembler
