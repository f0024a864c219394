import Mathlib.Data.Multiset.DershowitzManna

/-! Computations that may fail, and among them functions with fuel: that enough of it always gives
the same result, and not the one for too little. -/
namespace LC3Tools

variable {E A B : Type} {out : E}

theorem ok_of_bind {f : Except E A} {g : A → Except E B} {b : B} (ran : f >>= g = .ok b) :
    ∃ a, f = .ok a ∧ g a = .ok b := by
  cases f with
  | error e => exact nomatch ran
  | ok a => exact ⟨a, rfl, ran⟩

/-- With enough fuel, there is one result; where it is a value, the value is good. -/
def Settles (out : E) (f : Nat → Except E A) (Good : A → Prop) : Prop :=
  ∃ r, (∃ enough, ∀ fuel, enough ≤ fuel → f fuel = r) ∧ r ≠ .error out ∧ ∀ a, r = .ok a → Good a

namespace Settles
variable {f : Nat → Except E A} {g : Nat → A → Except E B} {Good : A → Prop} {Fine : B → Prop}

theorem ok {a : A} (same : ∀ fuel, f fuel = .ok a) (good : Good a) : Settles out f Good :=
  ⟨.ok a, ⟨0, fun fuel _ => same fuel⟩, nofun, fun _ is => Except.ok.inj is ▸ good⟩

theorem error {e : E} (same : ∀ fuel, f fuel = .error e) (other : e ≠ out) : Settles out f Good :=
  ⟨.error e, ⟨0, fun fuel _ => same fuel⟩, fun is => other (Except.error.inj is), nofun⟩

theorem mono {Better : A → Prop} (settles : Settles out f Good) (implies : ∀ a, Good a → Better a) :
    Settles out f Better := by
  obtain ⟨r, enough, other, good⟩ := settles
  exact ⟨r, enough, other, fun a is => implies a (good a is)⟩

theorem congr {h : Nat → Except E A} (settles : Settles out f Good)
    (same : ∀ fuel, h fuel = f fuel) : Settles out h Good :=
  (funext same : h = f) ▸ settles

theorem bind (first : Settles out f Good) (second : ∀ a, Good a → Settles out (g · a) Fine) :
    Settles out (fun fuel => f fuel >>= g fuel) Fine := by
  obtain ⟨r, ⟨enough, same⟩, other, good⟩ := first
  cases r with
  | error e =>
    refine ⟨.error e, ⟨enough, fun fuel le => ?_⟩,
      fun is => other (Except.error.inj is ▸ rfl), nofun⟩
    beta_reduce
    rw [same fuel le]
    rfl
  | ok a =>
    obtain ⟨r, ⟨enough', same'⟩, other', fine⟩ := second a (good a rfl)
    refine ⟨r, ⟨max enough enough', fun fuel le => ?_⟩, other', fine⟩
    beta_reduce
    rw [same fuel (by omega)]
    exact same' fuel (by omega)

theorem map {h : A → B} (settles : Settles out f fun a => Fine (h a)) :
    Settles out (fun fuel => (f fuel).map h) Fine := by
  obtain ⟨r, ⟨enough, same⟩, other, good⟩ := settles
  cases r with
  | error e =>
    refine ⟨.error e, ⟨enough, fun fuel le => ?_⟩,
      fun is => other (Except.error.inj is ▸ rfl), nofun⟩
    beta_reduce
    rw [same fuel le]
    rfl
  | ok a =>
    refine ⟨.ok (h a), ⟨enough, fun fuel le => ?_⟩, nofun,
      fun b is => Except.ok.inj is ▸ good a rfl⟩
    beta_reduce
    rw [same fuel le]
    rfl

theorem succ (settles : Settles out (fun fuel => f (fuel + 1)) Good) : Settles out f Good := by
  obtain ⟨r, ⟨enough, same⟩, rest⟩ := settles
  refine ⟨r, ⟨enough + 1, fun fuel le => ?_⟩, rest⟩
  obtain ⟨less, rfl⟩ : ∃ less, fuel = less + 1 := ⟨fuel - 1, by omega⟩
  exact same less (by omega)

end Settles

end LC3Tools
