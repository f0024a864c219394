import Mathlib.Data.List.Nodup
import Mathlib.Logic.Function.Basic
import Mathlib.Order.FixedPoints

/-! Code with labels. What it means to go on at each label is a solution of the equations that the
code writes down, and the runs are the least one. Two codes with the same solutions run the same. -/
namespace LC3Tools.Labels

universe u v w

/-- An instruction may go on, or leave for one of its targets; a table only leaves. -/
inductive Node (L : Type u) (I : Type v) where
  | label (l : L)
  | jump (l : L)
  | act (i : I) (targets : List L)
  | table (i : I) (targets : List L)

variable {L : Type u} {I : Type v} {S : Type w}

/-- From a state to the last one. -/
abbrev Meaning (S : Type w) := S → S → Prop

/-- The target and the next state, or nothing if the instruction is stuck. -/
abbrev Exec (I : Type v) (S : Type w) := I → S → Option (Option Nat × S)

namespace Node

def targets : Node L I → List L
  | label _ => []
  | jump l => [l]
  | act _ ts | table _ ts => ts

def labels : Node L I → List L
  | label l => [l]
  | _ => []

/-- Other targets, the same labels. -/
def rename (f : L → L) : Node L I → Node L I
  | label l => label l
  | jump l => jump (f l)
  | act i ts => act i (ts.map f)
  | table i ts => table i (ts.map f)

end Node

def targets (code : List (Node L I)) : List L := code.flatMap Node.targets

def labels (code : List (Node L I)) : List L := code.flatMap Node.labels

section
variable (exec : Exec I S) (K : L → Meaning S) (fall : Meaning S)

def leave (ts : List L) (k : Nat) : Meaning S :=
  match ts[k]? with
  | some l => K l
  | none => fun _ _ => False

/-- Behind an instruction: on to what follows, or to a target. -/
def next (on : Meaning S) (ts : List L) : Option (Option Nat × S) → S → Prop
  | some (none, s), t => on s t
  | some (some k, s), t => leave K ts k s t
  | none, _ => False

/-- What the code means, with what it means to go on at the labels and behind the end. -/
def den : List (Node L I) → Meaning S
  | [] => fall
  | .label _ :: rest => den rest
  | .jump l :: _ => K l
  | .act i ts :: rest => fun s => next K (den rest) ts (exec i s)
  | .table i ts :: _ => fun s => next K (fun _ _ => False) ts (exec i s)

/-- The equation of each label of the code. -/
def Solves : List (Node L I) → Prop
  | [] => True
  | .label l :: rest => K l = den exec K fall rest ∧ Solves rest
  | _ :: rest => Solves rest

/-- The equations of some labels only. -/
def SolvesAt (A : L → Prop) : List (Node L I) → Prop
  | [] => True
  | .label l :: rest => (A l → K l = den exec K fall rest) ∧ SolvesAt A rest
  | _ :: rest => SolvesAt A rest

end

section
variable {exec : Exec I S} {K K' : L → Meaning S} {fall : Meaning S} {code a b : List (Node L I)}
  {f : L → L}

@[simp] theorem next_on (on : Meaning S) (ts : List L) (s : S) :
    next K on ts (some (none, s)) = on s := rfl

@[simp] theorem next_leave (on : Meaning S) (ts : List L) (k : Nat) (s : S) :
    next K on ts (some (some k, s)) = leave K ts k s := rfl

@[simp] theorem targets_append : targets (a ++ b) = targets a ++ targets b := List.flatMap_append

@[simp] theorem labels_append : labels (a ++ b) = labels a ++ labels b := List.flatMap_append

theorem targets_cons (n : Node L I) : targets (n :: code) = n.targets ++ targets code :=
  List.flatMap_cons

theorem labels_cons (n : Node L I) : labels (n :: code) = n.labels ++ labels code :=
  List.flatMap_cons

theorem den_append : den exec K fall (a ++ b) = den exec K (den exec K fall b) a := by
  induction a with
  | nil => rfl
  | cons n a ih =>
    cases n with
    | label | jump | table => first | exact ih | rfl
    | act i ts =>
      rw [List.cons_append, den, den, ih]

theorem solves_append : Solves exec K fall (a ++ b) ↔ Solves exec K (den exec K fall b) a ∧
    Solves exec K fall b := by
  induction a with
  | nil => exact (true_and _).symm.to_iff
  | cons n a ih =>
    cases n with
    | jump | act | table => exact ih
    | label l =>
      change K l = den exec K fall (a ++ b) ∧ Solves exec K fall (a ++ b) ↔
        (K l = den exec K (den exec K fall b) a ∧ Solves exec K (den exec K fall b) a) ∧ _
      rw [ih, den_append, and_assoc]

theorem solvesAt_append {A : L → Prop} :
    SolvesAt exec K fall A (a ++ b) ↔ SolvesAt exec K (den exec K fall b) A a ∧
      SolvesAt exec K fall A b := by
  induction a with
  | nil => exact (true_and _).symm.to_iff
  | cons n a ih =>
    cases n with
    | jump | act | table => exact ih
    | label l =>
      change (A l → K l = den exec K fall (a ++ b)) ∧ SolvesAt exec K fall A (a ++ b) ↔
        ((A l → K l = den exec K (den exec K fall b) a) ∧ SolvesAt exec K (den exec K fall b) A a) ∧
          _
      rw [ih, den_append, and_assoc]

theorem SolvesAt.solves {A : L → Prop} (solves : SolvesAt exec K fall A code)
    (all : ∀ l ∈ labels code, A l) :
    Solves exec K fall code := by
  induction code with
  | nil => trivial
  | cons n code ih =>
    cases n with
    | jump | act | table => exact ih solves all
    | label l =>
      exact ⟨solves.1 (all l (List.mem_cons_self ..)), ih solves.2 fun m mem => all m
        (List.mem_cons_of_mem _ mem)⟩

theorem leave_congr {ts : List L} (same : ∀ l ∈ ts, K l = K' l) (k : Nat) :
    leave K ts k = leave K' ts k := by
  unfold leave
  cases at_k : ts[k]? with
  | none => rfl
  | some l => exact same l (List.mem_of_getElem? at_k)

theorem next_congr {on : Meaning S} {ts : List L} (same : ∀ l ∈ ts, K l = K' l) :
    next K on ts = next K' on ts := by
  funext r t
  match r with
  | some (none, s) | none => rfl
  | some (some k, s) =>
    change leave K ts k s t = leave K' ts k s t
    rw [leave_congr same]

theorem den_congr (same : ∀ l ∈ targets code, K l = K' l) :
    den exec K fall code = den exec K' fall code := by
  induction code with
  | nil => rfl
  | cons n code ih =>
    rw [targets_cons] at same
    have later := ih fun l mem => same l (List.mem_append_right _ mem)
    cases n with
    | label l => exact later
    | jump l => exact same l (List.mem_append_left _ (List.mem_singleton_self l))
    | act i ts | table i ts =>
      have here : ∀ l ∈ ts, K l = K' l := fun l mem => same l (List.mem_append_left _ mem)
      simp only [den, later, next_congr here]

theorem solves_congr (same : ∀ l ∈ targets code, K l = K' l)
    (same' : ∀ l ∈ labels code, K l = K' l) :
    Solves exec K fall code ↔ Solves exec K' fall code := by
  induction code with
  | nil => rfl
  | cons n code ih =>
    rw [targets_cons] at same
    rw [labels_cons] at same'
    have later := ih (fun l mem => same l (List.mem_append_right _ mem))
      (fun l mem => same' l (List.mem_append_right _ mem))
    cases n with
    | jump | act | table => exact later
    | label l =>
      have here : K l = K' l := same' l (List.mem_append_left _ (List.mem_singleton_self l))
      have rest : den exec K fall code = den exec K' fall code :=
        den_congr fun l mem => same l (List.mem_append_right _ mem)
      change K l = den exec K fall code ∧ _ ↔ K' l = den exec K' fall code ∧ _
      rw [here, rest, later]

theorem leave_rename (ts : List L) (k : Nat) :
    leave K (ts.map f) k = leave (fun l => K (f l)) ts k := by
  unfold leave
  rw [List.getElem?_map]
  cases ts[k]? <;> rfl

theorem next_rename {on : Meaning S} (ts : List L) :
    next K on (ts.map f) = next (fun l => K (f l)) on ts := by
  funext r t
  match r with
  | some (none, s) | none => rfl
  | some (some k, s) =>
    change leave K (ts.map f) k s t = leave (fun l => K (f l)) ts k s t
    rw [leave_rename]

theorem den_rename : den exec K fall (code.map (Node.rename f)) = den exec
    (fun l => K (f l)) fall code := by
  induction code with
  | nil => rfl
  | cons n code ih =>
    cases n with
    | label | jump => first | exact ih | rfl
    | act i ts | table i ts => simp only [List.map_cons, Node.rename, den, ih, next_rename]

theorem solves_rename (fixed : ∀ l ∈ labels code, f l = l) :
    Solves exec K fall (code.map (Node.rename f)) ↔ Solves exec (fun l => K (f l)) fall code := by
  induction code with
  | nil => rfl
  | cons n code ih =>
    rw [labels_cons] at fixed
    have later := ih fun l mem => fixed l (List.mem_append_right _ mem)
    cases n with
    | jump | act | table => exact later
    | label l =>
      have here : f l = l := fixed l (List.mem_append_left _ (List.mem_singleton_self l))
      change K l = den exec K fall (code.map (Node.rename f)) ∧ _ ↔ K (f l) = _ ∧ _
      rw [den_rename, later, here]

theorem labels_rename : labels (code.map (Node.rename f)) = labels code := by
  induction code with
  | nil => rfl
  | cons n code ih =>
    rw [List.map_cons, labels_cons, labels_cons, ih]
    cases n <;> rfl

end

/-- From a place of the code, where the rest of it stands, to the end. -/
inductive Runs (exec : Exec I S) (code : List (Node L I)) : List (Node L I) → Meaning S where
  | done (s : S) : Runs exec code [] s s
  | label {l : L} {rest : List (Node L I)} {s t : S} (later : Runs exec code rest s t) :
      Runs exec code (.label l :: rest) s t
  | jump {l : L} {after rest : List (Node L I)} {s t : S} (there : .label l :: after <:+ code)
      (later : Runs exec code after s t) : Runs exec code (.jump l :: rest) s t
  | act {i : I} {ts : List L} {rest : List (Node L I)} {s s' t : S}
    (does : exec i s = some (none, s'))
      (later : Runs exec code rest s' t) : Runs exec code (.act i ts :: rest) s t
  | leave {i : I} {ts : List L} {k : Nat} {l : L} {after rest : List (Node L I)} {s s' t : S}
      (does : exec i s = some (some k, s')) (target : ts[k]? = some l)
      (there : .label l :: after <:+ code)
      (later : Runs exec code after s' t) : Runs exec code (.act i ts :: rest) s t
  | table {i : I} {ts : List L} {k : Nat} {l : L} {after rest : List (Node L I)} {s s' t : S}
      (does : exec i s = some (some k, s')) (target : ts[k]? = some l)
      (there : .label l :: after <:+ code)
      (later : Runs exec code after s' t) : Runs exec code (.table i ts :: rest) s t

/-- The runs from a label. -/
def RunsAt (exec : Exec I S) (code : List (Node L I)) (l : L) : Meaning S :=
  fun s t => ∃ rest, .label l :: rest <:+ code ∧ Runs exec code rest s t

section
variable {exec : Exec I S} {K : L → Meaning S} {code rest : List (Node L I)} {s t : S}

theorem Runs.den_of_solves (solves : Solves exec K Eq code) (ran : Runs exec code rest s t) :
    den exec K Eq rest s t := by
  have there {l : L} {after : List (Node L I)} {s t : S} (suffix : .label l :: after <:+ code)
      (later : den exec K Eq after s t) : K l s t := by
    obtain ⟨front, rfl⟩ := suffix
    rw [(solves_append.mp solves).2.1]
    exact later
  induction ran with
  | done s => rfl
  | label later ih => exact ih
  | jump suffix later ih => exact there suffix ih
  | act does later ih =>
    simp only [den, does, next]
    exact ih
  | leave does target suffix later ih | table does target suffix later ih =>
    simp only [den, does, next, Labels.leave, target]
    exact there suffix ih

theorem leave_runsAt {ts : List L} {k : Nat} : leave (RunsAt exec code) ts k s t ↔
    ∃ l, ts[k]? = some l ∧ ∃ after, .label l :: after <:+ code ∧ Runs exec code after s t := by
  unfold leave
  cases ts[k]? with
  | none => simp
  | some l => simp [RunsAt]

theorem runs_iff : Runs exec code rest s t ↔ den exec (RunsAt exec code) Eq rest s t := by
  induction rest generalizing s with
  | nil =>
    constructor
    · rintro ⟨⟩
      rfl
    · rintro rfl
      exact .done _
  | cons n rest ih =>
    cases n with
    | label l =>
      constructor
      · rintro ⟨⟩
        exact ih.mp ‹_›
      · intro later
        exact .label (ih.mpr later)
    | jump l =>
      constructor
      · rintro ⟨⟩
        exact ⟨_, ‹_›, ‹_›⟩
      · rintro ⟨after, suffix, later⟩
        exact .jump suffix later
    | act i ts =>
      constructor
      · intro ran
        cases ran with
        | act does later =>
          simp only [den, does, next]
          exact ih.mp later
        | leave does target suffix later =>
          simp only [den, does, next, Labels.leave, target]
          exact ⟨_, suffix, later⟩
      · intro later
        match does : exec i s with
        | some (none, s') =>
          simp only [den, does, next] at later
          exact .act does (ih.mpr later)
        | some (some k, s') =>
          simp only [den, does, next] at later
          obtain ⟨l, target, after, suffix, ran⟩ := leave_runsAt.mp later
          exact .leave does target suffix ran
        | none =>
          simp only [den, does, next] at later
    | table i ts =>
      constructor
      · intro ran
        cases ran with
        | table does target suffix later =>
          simp only [den, does, next, Labels.leave, target]
          exact ⟨_, suffix, later⟩
      · intro later
        match does : exec i s with
        | some (none, s') | none => simp only [den, does, next] at later
        | some (some k, s') =>
          simp only [den, does, next] at later
          obtain ⟨l, target, after, suffix, ran⟩ := leave_runsAt.mp later
          exact .table does target suffix ran

theorem suffix_once (once : (labels code).Nodup) {l : L} {after after' : List (Node L I)}
    (here : .label l :: after <:+ code)
    (here' : .label l :: after' <:+ code) : after = after' := by
  induction code with
  | nil => exact absurd (List.suffix_nil.mp here) (List.cons_ne_nil _ _)
  | cons n code ih =>
    rw [labels_cons] at once
    have inside {after : List (Node L I)} (suffix : .label l :: after <:+ code) :
      l ∈ labels code := by
      obtain ⟨front, rfl⟩ := suffix
      rw [labels_append]
      exact List.mem_append_right _ (List.mem_cons_self ..)
    have twice {after : List (Node L I)} (suffix : .label l :: after <:+ code)
      (first : .label l = n) : False := by
      subst first
      exact (List.nodup_cons.mp once).1 (inside suffix)
    rcases List.suffix_cons_iff.mp here with first | later
    · rcases List.suffix_cons_iff.mp here' with first' | later'
      · rw [← first'] at first
        exact (List.cons.inj first).2
      · exact (twice later' (List.cons.inj first).1).elim
    · rcases List.suffix_cons_iff.mp here' with first' | later'
      · exact (twice later (List.cons.inj first').1).elim
      · exact ih (List.Nodup.of_append_right once) later later'

theorem runsAt_solves (once : (labels code).Nodup) (suffix : rest <:+ code) :
    Solves exec (RunsAt exec code) Eq rest := by
  induction rest with
  | nil => trivial
  | cons n rest ih =>
    have later := ih ((List.suffix_cons n rest).trans suffix)
    cases n with
    | jump | act | table => exact later
    | label l =>
      refine ⟨?_, later⟩
      funext s t
      refine propext ⟨?_, fun ran => ⟨rest, suffix, runs_iff.mpr ran⟩⟩
      rintro ⟨after, there, ran⟩
      cases suffix_once once there suffix
      exact runs_iff.mp ran

end

/-! Whatever some labels mean, the others have meanings that solve their equations. -/

section
variable {exec : Exec I S} {K K' : L → Meaning S} {fall : Meaning S} {code : List (Node L I)}

theorem leave_mono (below : K ≤ K') (ts : List L) (k : Nat) : leave K ts k ≤ leave K' ts k := by
  unfold leave
  cases ts[k]? with
  | none => exact le_refl _
  | some l => exact below l

theorem den_mono (below : K ≤ K') : den exec K fall code ≤ den exec K' fall code := by
  have next_mono {on on' : Meaning S} (later : on ≤ on') (ts : List L) (r : Option (Option Nat × S))
    (t : S) :
      next K on ts r t ≤ next K' on' ts r t := by
    match r with
    | some (none, s) => exact later s t
    | some (some k, s) => exact leave_mono below ts k s t
    | none => exact le_refl _
  induction code with
  | nil => exact le_refl _
  | cons n code ih =>
    cases n with
    | label l => exact ih
    | jump l => exact below l
    | act i ts => exact fun s t => next_mono ih ts (exec i s) t
    | table i ts => exact fun s t => next_mono (le_refl _) ts (exec i s) t

variable [DecidableEq L]

/-- What stands behind a label. -/
def behind (l : L) : List (Node L I) → List (Node L I)
  | [] => []
  | .label m :: rest => if m = l then rest else behind l rest
  | _ :: rest => behind l rest

theorem solvesAt_of_behind (once : (labels code).Nodup) {A : L → Prop}
    (solved : ∀ l ∈ labels code, A l → K l = den exec K fall (behind l code)) :
      SolvesAt exec K fall A code := by
  induction code with
  | nil => trivial
  | cons n code ih =>
    cases n with
    | jump | act | table => exact ih once solved
    | label l =>
      obtain ⟨elsewhere, once'⟩ := List.nodup_cons.mp once
      refine ⟨fun asked => ?_, ih once' fun m mem asked => ?_⟩
      · have here := solved l (List.mem_cons_self ..) asked
        rwa [behind, if_pos rfl] at here
      · have there := solved m (List.mem_cons_of_mem _ mem) asked
        rwa [behind, if_neg (ne_of_mem_of_not_mem mem elsewhere).symm] at there

theorem exists_solvesAt (once : (labels code).Nodup) (A : L → Prop) [DecidablePred A]
    (exec : Exec I S)
    (K : L → Meaning S) (fall : Meaning S) :
    ∃ K', (∀ l, ¬ A l → K' l = K l) ∧ SolvesAt exec K' fall A code := by
  let step : (L → Meaning S) →o (L → Meaning S) :=
    { toFun := fun K' l => if A l then den exec K' fall (behind l code) else K l
      monotone' := by
        intro K₁ K₂ below l
        dsimp only
        split
        · exact den_mono below
        · exact le_refl _ }
  have fixed (l : L) : OrderHom.lfp step l =
      if A l then den exec (OrderHom.lfp step) fall (behind l code) else K l :=
    congrFun (OrderHom.map_lfp step).symm l
  refine ⟨OrderHom.lfp step, fun l other => ?_, solvesAt_of_behind once fun l _ asked => ?_⟩
  · rw [fixed, if_neg other]
  · exact (fixed l).trans (if_pos asked)

end

end LC3Tools.Labels
