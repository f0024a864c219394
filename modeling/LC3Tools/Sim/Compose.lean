import LC3Tools.Sim.Console

/-! Runs behind one another. `Processor::Run` keeps its count in the out-parameter, an
`unsigned int`, and `main` calls it again until it stops. -/
namespace LC3Tools.Compose
open Sim

section
variable {H : Type} {w : Nat} [Host H w]

/-- The `for` of `Run`. Under the largest bound its condition never fails. -/
def countedLoop (ib : Nat) (config : ProcessorConfig w) (bound : BitVec 32) :
    Nat → BitVec 32 → Exception → Processor H w → Option (Exception × BitVec 32 × Processor H w)
  | 0, _, _, _ => none
  | fuel + 1, count, e, p =>
    if count ≤ bound then
      (iteration ib config p).bind fun (e', p') =>
        if e' = .stop ∨ e' = .rti then some (e', count, p')
        else countedLoop ib config bound fuel (count + 1) e' p'
    else some (e, count, p)

/-- `Processor::Run`: the condition is tested once more than there are iterations. -/
def runCounted (ib : Nat) (config : ProcessorConfig w) (bound : BitVec 32) (p : Processor H w) :
    Option (RunResult × BitVec 32 × Processor H w) :=
  (countedLoop ib config bound (bound.toNat + 1) 1 .success p).map fun (e, count, p') =>
    (RunResult.ofException e, count, p')

/-- The loop of `main` with the runs that are left. -/
def mainLoop (ib : Nat) (config : ProcessorConfig w) (bound : BitVec 32) :
    Nat → Processor H w → Option (RunResult × Processor H w)
  | 0, p => some (.globalError, p)
  | left + 1, p =>
    (runCounted ib config bound p).bind fun (result, _, p') =>
      if result = .globalError then mainLoop ib config bound left p' else some (result, p')

variable {ib : Nat} {config : ProcessorConfig w}

/-- The two exceptions that leave the loop. -/
def Leaves (e : Exception) : Prop := e = .stop ∨ e = .rti

instance (e : Exception) : Decidable (Leaves e) := inferInstanceAs (Decidable (_ ∨ _))

theorem leaves_iff (e : Exception) : Leaves e ↔ RunResult.ofException e ≠ .globalError := by
  cases e <;> simp [Leaves, RunResult.ofException]

theorem runLoop_succ (left count : Nat) (e : Exception) (p : Processor H w) :
    runLoop ib config (left + 1) count e p = (iteration ib config p).bind fun (e', p') =>
      if Leaves e' then some (e', count, p') else runLoop ib config left (count + 1) e' p' := rfl

theorem runLoop_count {left count : Nat} {e e' : Exception} {count' : Nat} {p p' : Processor H w}
    (ran : runLoop ib config left count e p = some (e', count', p')) (bounded : ¬ Leaves e') :
    count' = count + left := by
  induction left generalizing count e p with
  | zero =>
    cases Option.some.inj ran
    rfl
  | succ left ih =>
    rw [runLoop_succ] at ran
    obtain ⟨⟨e₁, p₁⟩, stepped, rest⟩ := Option.bind_eq_some_iff.mp ran
    by_cases leaves : Leaves e₁
    · simp only [if_pos leaves] at rest
      cases Option.some.inj rest
      exact absurd leaves bounded
    · simp only [if_neg leaves] at rest
      have counted := ih rest
      omega

theorem runLoop_shift (left count k : Nat) (e : Exception) (p : Processor H w) :
    runLoop ib config left (k + count) e p =
      (runLoop ib config left count e p).map fun (e', c, p') => (e', k + c, p') := by
  induction left generalizing count e p with
  | zero => rfl
  | succ left ih =>
    rw [runLoop_succ, runLoop_succ]
    cases stepped : iteration ib config p with
    | none => rfl
    | some r =>
      obtain ⟨e₁, p₁⟩ := r
      simp only [Option.bind_some]
      by_cases leaves : Leaves e₁
      · simp only [if_pos leaves, Option.map_some]
      · simp only [if_neg leaves]
        exact ih (count + 1) e₁ p₁

theorem runLoop_add (ib : Nat) (config : ProcessorConfig w) (a b count : Nat) {e : Exception}
    (p : Processor H w) (quiet : ¬ Leaves e) :
    runLoop ib config (a + b) count e p =
      (runLoop ib config a count e p).bind fun (e', c, q) =>
        if Leaves e' then some (e', c, q) else runLoop ib config b c e' q := by
  induction a generalizing count e p with
  | zero => simp only [Nat.zero_add, runLoop, Option.bind_some, if_neg quiet]
  | succ a ih =>
    rw [Nat.add_right_comm, runLoop_succ, runLoop_succ, Option.bind_assoc]
    congr 1
    funext r
    obtain ⟨e₁, p₁⟩ := r
    by_cases leaves : Leaves e₁
    · simp only [if_pos leaves, Option.bind_some]
    · simp only [if_neg leaves]
      exact ih (count + 1) p₁ leaves

/-- Only the result of a loop without an iteration comes from the exception before it. -/
theorem runLoop_result (ib : Nat) (config : ProcessorConfig w) (left count : Nat) {e : Exception}
    (p : Processor H w) (quiet : ¬ Leaves e) :
    ((runLoop ib config left count e p).map fun (e', c, q) => (RunResult.ofException e', c, q)) =
      (runLoop ib config left count .success p).map fun (e', c, q) =>
        (RunResult.ofException e', c, q) := by
  cases left with
  | zero =>
    have same : RunResult.ofException e = .globalError := by
      by_contra other
      exact quiet ((leaves_iff e).mpr other)
    simp only [runLoop, Option.map_some, same]
    rfl
  | succ left => rfl

theorem countedLoop_eq (bound : BitVec 32) (below : bound.toNat < 2 ^ 32 - 1) (left count : Nat)
    (e : Exception) (p : Processor H w) (counted : left + count = bound.toNat + 1) :
    countedLoop ib config bound (left + 1) (BitVec.ofNat 32 count) e p =
      (runLoop ib config left count e p).map fun (e', c, q) => (e', BitVec.ofNat 32 c, q) := by
  have number : (BitVec.ofNat 32 count).toNat = count := by
    rw [BitVec.toNat_ofNat, Nat.mod_eq_of_lt (by omega)]
  induction left generalizing count e p with
  | zero =>
    have beyond : ¬ BitVec.ofNat 32 count ≤ bound := by
      rw [BitVec.le_def, number]
      omega
    simp only [countedLoop, if_neg beyond, runLoop, Option.map_some]
  | succ left ih =>
    have inside : BitVec.ofNat 32 count ≤ bound := by
      rw [BitVec.le_def, number]
      omega
    have next : BitVec.ofNat 32 count + 1 = BitVec.ofNat 32 (count + 1) :=
      (BitVec.ofNat_add count 1).symm
    rw [countedLoop, if_pos inside, runLoop_succ, Option.map_bind]
    congr 1
    funext r
    obtain ⟨e₁, p₁⟩ := r
    by_cases leaves : Leaves e₁
    · have leaves' : e₁ = .stop ∨ e₁ = .rti := leaves
      simp only [if_pos leaves, if_pos leaves', Function.comp_apply, Option.map_some]
    · have leaves' : ¬ (e₁ = .stop ∨ e₁ = .rti) := leaves
      simp only [if_neg leaves, if_neg leaves', Function.comp_apply, next]
      apply ih
      · omega
      · rw [BitVec.toNat_ofNat, Nat.mod_eq_of_lt (by omega)]

theorem runCounted_eq {bound : BitVec 32} (below : bound.toNat < 2 ^ 32 - 1) (p : Processor H w) :
    runCounted ib config bound p = (p.run ib config bound.toNat).map fun (r, c, q) =>
      (r, BitVec.ofNat 32 c, q) := by
  unfold runCounted Processor.run
  rw [show (1 : BitVec 32) = BitVec.ofNat 32 1 from rfl, countedLoop_eq bound below _ _ _ _ rfl,
    Option.map_map, Option.map_map]
  rfl

theorem run_add {n m count : Nat} {p q : Processor H w}
    (first : p.run ib config n = some (.globalError, count, q)) :
    count = n + 1 ∧ p.run ib config (n + m) = (q.run ib config m).map fun (r, c, t) =>
      (r, n + c, t) := by
  obtain ⟨⟨e, c, q'⟩, ran, same⟩ := Option.map_eq_some_iff.mp first
  obtain ⟨result, rfl, rfl⟩ : RunResult.ofException e = .globalError ∧ c = count ∧ q' = q := by
    simpa using same
  have quiet : ¬ Leaves e := by
    rw [leaves_iff, not_not]
    exact result
  have counted := runLoop_count ran quiet
  have start : ¬ Leaves .success := by decide
  constructor
  · omega
  · have joined := runLoop_add ib config n m 1 p start
    obtain rfl : c = n + 1 := by omega
    simp only [ran, Option.bind_some, if_neg quiet] at joined
    rw [runLoop_shift] at joined
    have results := runLoop_result ib config m 1 q' quiet
    unfold Processor.run
    rw [joined, Option.map_map, Option.map_map]
    have shifted := congrArg (Option.map fun (r, k, t) => (r, n + k, t)) results
    rw [Option.map_map, Option.map_map] at shifted
    exact shifted

theorem run_stopped {n m count : Nat} {r : RunResult} {p q : Processor H w}
    (first : p.run ib config n = some (r, count, q)) (stopped : r ≠ .globalError) :
    p.run ib config (n + m) = some (r, count, q) := by
  obtain ⟨⟨e, c, q'⟩, ran, same⟩ := Option.map_eq_some_iff.mp first
  obtain ⟨rfl, rfl, rfl⟩ : RunResult.ofException e = r ∧ c = count ∧ q' = q := by simpa using same
  have leaves : Leaves e := (leaves_iff e).mpr stopped
  have start : ¬ Leaves .success := by decide
  unfold Processor.run
  rw [runLoop_add ib config n m 1 p start, ran]
  simp only [Option.bind_some, if_pos leaves, Option.map_some]

theorem run_undefined {n m : Nat} {p : Processor H w} (first : p.run ib config n = none) :
    p.run ib config (n + m) = none := by
  have start : ¬ Leaves .success := by decide
  have ran := Option.map_eq_none_iff.mp first
  unfold Processor.run
  rw [runLoop_add ib config n m 1 p start, ran, Option.bind_none, Option.map_none]

theorem mainLoop_eq {bound : BitVec 32} (below : bound.toNat < 2 ^ 32 - 1) (runs : Nat)
    (p : Processor H w) : mainLoop ib config bound runs p =
      (p.run ib config (runs * bound.toNat)).map fun (r, _, q) => (r, q) := by
  induction runs generalizing p with
  | zero =>
    rw [Nat.zero_mul]
    rfl
  | succ runs ih =>
    rw [mainLoop, runCounted_eq below, Nat.succ_mul, Nat.add_comm (runs * _)]
    cases first : p.run ib config bound.toNat with
    | none =>
      rw [run_undefined first]
      rfl
    | some res =>
      obtain ⟨r, c, q⟩ := res
      simp only [Option.map_some, Option.bind_some]
      by_cases going : r = .globalError
      · rw [if_pos going, ih q]
        rw [going] at first
        rw [(run_add first).2, Option.map_map]
        rfl
      · rw [if_neg going, run_stopped first going]
        rfl

end

/-- For every processor, configuration and environment: a run that reaches its bound and a
second run from where it left give what the single run gives, whose count is the first bound
and the second count; and the runs of `main` give what one run of all their iterations gives. -/
theorem runs_compose {H : Type} {w : Nat} [Host H w] (ib : Nat) (config : ProcessorConfig w)
    (p : Processor H w) :
    (∀ (n m count : BitVec 32) (q : Processor H w), n.toNat + m.toNat < 2 ^ 32 - 1 →
      runCounted ib config n p = some (.globalError, count, q) →
      count = n + 1 ∧ runCounted ib config (n + m) p =
        (runCounted ib config m q).map fun (r, c, t) => (r, n + c, t)) ∧
    (∀ (runs : Nat) (n : BitVec 32), n.toNat < 2 ^ 32 - 1 →
      mainLoop ib config n runs p =
        (p.run ib config (runs * n.toNat)).map fun (r, _, q) => (r, q)) := by
  constructor
  · intro n m count q below first
    have sum : (n + m).toNat = n.toNat + m.toNat := by
      rw [BitVec.toNat_add, Nat.mod_eq_of_lt (by omega)]
    rw [runCounted_eq (by omega)] at first
    obtain ⟨⟨r, c, q'⟩, ran, same⟩ := Option.map_eq_some_iff.mp first
    obtain ⟨rfl, rfl, rfl⟩ : r = .globalError ∧ BitVec.ofNat 32 c = count ∧ q' = q := by
      simpa using same
    obtain ⟨counted, joined⟩ := run_add (m := m.toNat) ran
    constructor
    · rw [counted, BitVec.ofNat_add, BitVec.ofNat_toNat, BitVec.setWidth_eq]
      rfl
    · rw [runCounted_eq (by omega), runCounted_eq (by omega), sum, joined, Option.map_map,
        Option.map_map]
      congr 1
      funext res
      obtain ⟨r, k, t⟩ := res
      simp only [Function.comp_apply, BitVec.ofNat_add, BitVec.ofNat_toNat, BitVec.setWidth_eq]
  · intro runs n below
    exact mainLoop_eq below runs p

/-- `ADD R0, R0, #1` at x3000, and nothing behind it. -/
def oneAdd : Processor (SimpleHost 65535 16) 16 :=
  ⟨⟨⟨fun _ => 0, 0x3000, 0⟩, ⟨fun a => if a = 0x3000 then 0x1021 else 0, ⟨[], [], []⟩⟩⟩, 0⟩

def mainConfig : ProcessorConfig 16 := ⟨0, 0xfffe, 0⟩

theorem runs_compose_add : ∃ q, runCounted 16 mainConfig 1 oneAdd = some (.globalError, 2, q) ∧
    (runCounted 16 mainConfig 2 oneAdd =
      (runCounted 16 mainConfig 1 q).map fun (r, c, t) => (r, 1 + c, t)) ∧
    mainLoop 16 mainConfig 1 2 oneAdd =
      (oneAdd.run 16 mainConfig 2).map fun (r, _, q) => (r, q) := by
  have bounded : (runCounted 16 mainConfig 1 oneAdd).map (fun (r, c, _) => (r, c)) =
      some (.globalError, 2) := by
    decide +kernel
  obtain ⟨⟨r, c, q⟩, ran, seen⟩ := Option.map_eq_some_iff.mp bounded
  obtain ⟨rfl, rfl⟩ := Prod.mk.inj seen
  obtain ⟨composed, driven⟩ := runs_compose 16 mainConfig oneAdd
  exact ⟨q, ran, (composed 1 1 2 q (by decide) ran).2, driven 2 1 (by decide)⟩

end LC3Tools.Compose
