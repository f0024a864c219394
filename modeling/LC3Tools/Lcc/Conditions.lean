import LC3Tools.Lcc.CodeListRuns
import LC3Tools.Lcc.Compare

/-! Conditions: the cases AND, OR, NOT, CNST, RIGHT and the comparisons of `listnodes` in
`dag.c`. -/
namespace LC3Tools.Stmt
open Labels CodeList

abbrev Comparison := LC3Tools.Emit.Comparison

/-- What an expression is worth and does, what a variable is worth, and that as a signed integer. -/
structure Language (X S : Type) where
  value : X → S → Int × S
  read : Nat → S → Int
  get : Nat → S → Int

/-- The nodes of a forest that do something. -/
inductive Instr (X : Type) where
  | eval (x : X)
  | rel (op : Comparison) (l r : X)
  | cmp (op : Comparison) (sym : Nat) (n : Int)
  | table (sym : Nat) (low : Int)

/-- The conditional jumps have one target, a table as many as it has entries. -/
def exec {X S : Type} (lang : Language X S) : Exec (Instr X) S
  | .eval x, s => some (none, (lang.value x s).2)
  | .rel op l r, s =>
    let a := lang.value l s
    let b := lang.value r a.2
    some (if op.holds a.1 b.1 then some 0 else none, b.2)
  | .cmp op sym n, s => some (if op.holds (lang.get sym s) n then some 0 else none, s)
  | .table sym low, s =>
      if low ≤ lang.get sym s then some (some (lang.get sym s - low).toNat, s) else none

/-- The trees of `cond`. An AND or OR has the label that it gets if it asks for one. -/
inductive Cond (X : Type) where
  | rel (op : Comparison) (l r : X)
  | cnst (v : Int)
  | and (lab : Nat) (l r : Cond X)
  | or (lab : Nat) (l r : Cond X)
  | not (p : Cond X)
  | right (x : X) (p : Cond X)

namespace Cond
variable {X S : Type}

/-- Where the second operand is not asked, it does nothing. -/
def value (lang : Language X S) : Cond X → S → Bool × S
  | rel op l r, s =>
    let a := lang.value l s
    let b := lang.value r a.2
    (op.holds a.1 b.1, b.2)
  | cnst v, s => (v ≠ 0, s)
  | and _ l r, s =>
    let a := value lang l s
    if a.1 then value lang r a.2 else (false, a.2)
  | or _ l r, s =>
    let a := value lang l s
    if a.1 then (true, a.2) else value lang r a.2
  | not p, s =>
    let a := value lang p s
    (!a.1, a.2)
  | right x p, s => value lang p (lang.value x s).2

def labels : Cond X → List Nat
  | rel .. | cnst _ => []
  | and lab l r | or lab l r => l.labels ++ (r.labels ++ [lab])
  | not p | right _ p => p.labels

/-- As `genlabel` gives them. -/
def Positive (c : Cond X) : Prop := ∀ l ∈ c.labels, l ≠ 0

end Cond

/-- The comparison that holds where this one does not. -/
def negated : Comparison → Comparison
  | .EQ => .NE
  | .NE => .EQ
  | .GT => .LE
  | .LT => .GE
  | .GE => .LT
  | .LE => .GT

@[simp] theorem holds_negated (op : Comparison) (a b : Int) : (negated op).holds a b ↔
    ¬ op.holds a b := by
  cases op <;> simp only [negated, LC3Tools.Emit.Comparison.holds] <;> omega

section
variable {X S : Type}

/-- `listnodes` of a condition: to the first label if it holds, to the second one if not, and on
where there is none. -/
def listnodes (tlab flab : Nat) : Cond X → List (Call (Instr X))
  | .and lab l r =>
    if flab ≠ 0 then listnodes 0 flab l ++ listnodes 0 flab r
    else listnodes 0 lab l ++ listnodes tlab 0 r ++ [.labelnode lab]
  | .or lab l r =>
    if tlab ≠ 0 then listnodes tlab 0 l ++ listnodes tlab 0 r
    else listnodes lab 0 l ++ listnodes 0 flab r ++ [.labelnode lab]
  | .not p => listnodes flab tlab p
  | .cnst v =>
    if tlab ≠ 0 ∧ v ≠ 0 then [.jumpnode tlab]
    else if flab ≠ 0 ∧ v = 0 then [.jumpnode flab]
    else []
  | .right x p => .list (.eval x) [] :: listnodes tlab flab p
  | .rel op l r =>
    if tlab ≠ 0 then [.list (.rel op l r) [tlab]]
    else if flab ≠ 0 then [.list (.rel (negated op) l r) [flab]]
    else []

/-- The nodes of calls. -/
def nodes (cs : List (Call (Instr X))) : List (Node Nat (Instr X)) := cs.flatMap Call.nodes

@[simp] theorem nodes_append (a b : List (Call (Instr X))) : nodes (a ++ b) = nodes a ++ nodes b :=
  List.flatMap_append

theorem nodesTables_append (a b : List (Node Nat (Instr X))) :
    nodesTables (a ++ b) = nodesTables a ++ nodesTables b :=
  List.flatMap_append

theorem nodes_cons (c : Call (Instr X)) (cs : List (Call (Instr X))) :
    nodes (c :: cs) = c.nodes ++ nodes cs :=
  List.flatMap_cons

/-- On at the label, if there is one. -/
def goto (K : Nat → Meaning S) (fall : Meaning S) (lab : Nat) : Meaning S :=
  if lab ≠ 0 then K lab else fall

variable {lang : Language X S} {K : Nat → Meaning S} {fall : Meaning S} {tlab flab : Nat}

/-- One of two labels is asked for. -/
def OneOf (tlab flab : Nat) : Prop := tlab ≠ 0 ∧ flab = 0 ∨ tlab = 0 ∧ flab ≠ 0

theorem goto_zero : goto K fall 0 = fall := rfl

theorem goto_pos {lab : Nat} (positive : lab ≠ 0) : goto K fall lab = K lab := if_pos positive

theorem den_listnodes (p : Cond X) (one : OneOf tlab flab) (positive : p.Positive)
    (solves : Solves (exec lang) K fall (nodes (listnodes tlab flab p))) (s : S) :
    den (exec lang) K fall (nodes (listnodes tlab flab p)) s =
      goto K fall (if (p.value lang s).1 then tlab else flab) (p.value lang s).2 := by
  induction p generalizing tlab flab fall s with
  | rel op l r =>
    rcases one with ⟨asked, rfl⟩ | ⟨rfl, asked⟩
    · by_cases holds : op.holds (lang.value l s).1 (lang.value r (lang.value l s).2).1 <;>
        simp [listnodes, nodes, Call.nodes, den, exec, leave, Cond.value, goto, asked, holds]
    · by_cases holds : op.holds (lang.value l s).1 (lang.value r (lang.value l s).2).1 <;>
        simp [listnodes, nodes, Call.nodes, den, exec, leave, Cond.value, goto, asked, holds,
          holds_negated]
  | cnst v =>
    rcases one with ⟨asked, rfl⟩ | ⟨rfl, asked⟩ <;> by_cases zero : v = 0 <;>
      simp [listnodes, nodes, Call.nodes, den, Cond.value, goto, asked, zero]
  | and lab l r ihl ihr =>
    have new : lab ≠ 0 := positive lab (by simp [Cond.labels])
    have positive_l : l.Positive := fun m mem => positive m (by simp [Cond.labels, mem])
    have positive_r : r.Positive := fun m mem => positive m (by simp [Cond.labels, mem])
    rcases one with ⟨asked, rfl⟩ | ⟨rfl, asked⟩
    · simp only [listnodes, ne_eq, not_true_eq_false, if_false, nodes_append] at solves ⊢
      obtain ⟨both, here, -⟩ := solves_append.mp solves
      obtain ⟨in_l, in_r⟩ := solves_append.mp both
      rw [den_append, den_append, ihl (.inr ⟨rfl, new⟩) positive_l in_l]
      cases first : (l.value lang s).1 with
      | true =>
        simp only [Cond.value, first, if_true, goto_zero]
        exact ihr (.inl ⟨asked, rfl⟩) positive_r in_r _
      | false =>
        simp only [Cond.value, first, Bool.false_eq_true, if_false, goto_zero, goto_pos new, here]
        rfl
    · simp only [listnodes, ne_eq, asked, not_false_eq_true, if_true, nodes_append] at solves ⊢
      obtain ⟨in_l, in_r⟩ := solves_append.mp solves
      rw [den_append, ihl (.inr ⟨rfl, asked⟩) positive_l in_l]
      cases first : (l.value lang s).1 with
      | true =>
        simp only [Cond.value, first, if_true, goto_zero]
        exact ihr (.inr ⟨rfl, asked⟩) positive_r in_r _
      | false => simp only [Cond.value, first, Bool.false_eq_true, if_false, goto_pos asked]
  | or lab l r ihl ihr =>
    have new : lab ≠ 0 := positive lab (by simp [Cond.labels])
    have positive_l : l.Positive := fun m mem => positive m (by simp [Cond.labels, mem])
    have positive_r : r.Positive := fun m mem => positive m (by simp [Cond.labels, mem])
    rcases one with ⟨asked, rfl⟩ | ⟨rfl, asked⟩
    · simp only [listnodes, ne_eq, asked, not_false_eq_true, if_true, nodes_append] at solves ⊢
      obtain ⟨in_l, in_r⟩ := solves_append.mp solves
      rw [den_append, ihl (.inl ⟨asked, rfl⟩) positive_l in_l]
      cases first : (l.value lang s).1 with
      | true => simp only [Cond.value, first, if_true, goto_pos asked]
      | false =>
        simp only [Cond.value, first, Bool.false_eq_true, if_false, goto_zero]
        exact ihr (.inl ⟨asked, rfl⟩) positive_r in_r _
    · simp only [listnodes, ne_eq, not_true_eq_false, if_false, nodes_append] at solves ⊢
      obtain ⟨both, here, -⟩ := solves_append.mp solves
      obtain ⟨in_l, in_r⟩ := solves_append.mp both
      rw [den_append, den_append, ihl (.inl ⟨new, rfl⟩) positive_l in_l]
      cases first : (l.value lang s).1 with
      | true =>
        simp only [Cond.value, first, if_true, goto_zero, goto_pos new, here]
        rfl
      | false =>
        simp only [Cond.value, first, Bool.false_eq_true, if_false, goto_zero]
        exact ihr (.inr ⟨rfl, asked⟩) positive_r in_r _
  | not p ih =>
    have other : OneOf flab tlab :=
      one.elim (fun asked => .inr ⟨asked.2, asked.1⟩) fun asked => .inl ⟨asked.2, asked.1⟩
    refine (ih other positive solves s).trans ?_
    cases holds : (p.value lang s).1 <;> simp only [Cond.value, holds, Bool.not_true,
      Bool.not_false, if_true, if_false,
      Bool.false_eq_true]
  | right x p ih =>
    exact ih one positive solves (lang.value x s).2

theorem targets_listnodes (p : Cond X) (tlab flab : Nat) :
    ∀ m ∈ targets (nodes (listnodes tlab flab p)),
    m = tlab ∧ tlab ≠ 0 ∨ m = flab ∧ flab ≠ 0 ∨ m ∈ labels (nodes (listnodes tlab flab p)) := by
  induction p generalizing tlab flab with
  | rel op l r =>
    unfold listnodes
    split
    · simp [nodes, Call.nodes, targets, Node.targets, *]
    · split <;> simp [nodes, Call.nodes, targets, Node.targets, *]
  | cnst v =>
    unfold listnodes
    split
    · simp [nodes, Call.nodes, targets, Node.targets, *]
    · split <;> simp [nodes, Call.nodes, targets, Node.targets, *]
  | and lab l r ihl ihr | or lab l r ihl ihr =>
    intro m
    have own : m = lab → m ∈ labels (nodes [(.labelnode lab : Call (Instr X))]) :=
      fun same => same ▸ List.mem_singleton_self _
    unfold listnodes
    split
    · rw [nodes_append, targets_append, labels_append, List.mem_append, List.mem_append]
      rintro (mem | mem)
      · have here := ihl _ _ m mem
        tauto
      · have here := ihr _ _ m mem
        tauto
    · rw [nodes_append, nodes_append, targets_append, targets_append, labels_append, labels_append,
        List.mem_append,
        List.mem_append, List.mem_append, List.mem_append]
      rintro ((mem | mem) | mem)
      · have here := ihl _ _ m mem
        tauto
      · have here := ihr _ _ m mem
        tauto
      · exact absurd mem List.not_mem_nil
  | not p ih =>
    intro m mem
    have here := ih flab tlab m mem
    exact here.elim (fun second => .inr (.inl second)) fun rest => rest.elim .inl fun own => .inr
      (.inr own)
  | right x p ih => exact ih tlab flab

theorem tables_listnodes (p : Cond X) (tlab flab : Nat) :
    nodesTables (nodes (listnodes tlab flab p)) = [] := by
  induction p generalizing tlab flab with
  | rel | cnst =>
    unfold listnodes
    split
    · rfl
    · split <;> rfl
  | and lab l r ihl ihr | or lab l r ihl ihr =>
    unfold listnodes
    split
    · rw [nodes_append, nodesTables_append, ihl, ihr]
      rfl
    · rw [nodes_append, nodes_append, nodesTables_append, nodesTables_append, ihl, ihr]
      rfl
  | not p ih => exact ih flab tlab
  | right x p ih => exact ih tlab flab

/-- Where the code of a condition goes on: at the label that is asked for if its value asks for it,
and behind it otherwise. -/
theorem listnodes_runs (p : Cond X) (one : OneOf tlab flab) (positive : p.Positive)
    (rest : List (Node Nat (Instr X)))
    (once : (labels (nodes (listnodes tlab flab p) ++ rest)).Nodup) (s t : S) :
    Runs (exec lang) (nodes (listnodes tlab flab p) ++ rest)
      (nodes (listnodes tlab flab p) ++ rest) s t ↔
      goto (RunsAt (exec lang) (nodes (listnodes tlab flab p) ++ rest))
        (Runs (exec lang) (nodes (listnodes tlab flab p) ++ rest) rest)
          (if (p.value lang s).1 then tlab else flab)
        (p.value lang s).2 t := by
  have whole : Solves (exec lang) _ Eq (nodes (listnodes tlab flab p) ++ rest) :=
    runsAt_solves once (List.suffix_refl _)
  have behind : den (exec lang) (RunsAt (exec lang) (nodes (listnodes tlab flab p) ++ rest))
    Eq rest =
      Runs (exec lang) (nodes (listnodes tlab flab p) ++ rest) rest :=
        funext fun s => funext fun t => propext runs_iff.symm
  have inside := (solves_append.mp whole).1
  rw [behind] at inside
  rw [runs_iff, den_append, behind, den_listnodes p one positive inside]

end

/-- Expressions that set a number, and change it. -/
def numbers : Language (Int → Int × Int) Int where
  value x s := x s
  read _ s := s
  get _ s := s

theorem listnodes_runs_and :
    Runs (exec numbers)
      (nodes (listnodes 0 5 (.and 4 (.rel .LT (fun s => (s, s + 1)) fun s => (3, s))
        (.rel .GT (fun s => (s, s)) fun s => (1, s)))) ++
        [.act (.eval fun s => (0, s + 10)) [], .label 5])
      (nodes (listnodes 0 5 (.and 4 (.rel .LT (fun s => (s, s + 1)) fun s => (3, s))
        (.rel .GT (fun s => (s, s)) fun s => (1, s)))) ++
        [.act (.eval fun s => (0, s + 10)) [], .label 5]) 1 12 := by
  refine (listnodes_runs _ (.inr ⟨rfl, by decide⟩) ?_ _ (by decide) 1 12).mpr ?_
  · exact fun l mem => by simp [Cond.labels] at mem; omega
  · exact .act rfl (.label (.done 12))

end LC3Tools.Stmt
