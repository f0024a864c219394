import LC3Tools.Relaxation

/-! The labelling code that `lburg` prints for a grammar of tree patterns, and the walks over
labelled trees in `gen.c`. -/
namespace LC3Tools.Lburg
open Relaxation

inductive Pattern (T N : Type) where
  | nonterm (nt : N)
  | leaf (op : T)
  | unary (op : T) (left : Pattern T N)
  | binary (op : T) (left right : Pattern T N)

/-- The nodes of an expression, with what else stands in each of them. -/
inductive Tree (T A : Type) where
  | leaf (op : T) (a : A)
  | unary (op : T) (a : A) (left : Tree T A)
  | binary (op : T) (a : A) (left right : Tree T A)

structure Rule (T N D : Type) where
  lhs : N
  pattern : Pattern T N
  cost : Tree T D → Nat

/-- `_state`: for each nonterminal the least cost, and the packed number of its rule. -/
abbrev State (N : Type) := Costs N Nat

structure Grammar (T N D : Type) where
  rules : List (Rule T N D)
  indir : T → Bool
  vreg : T → Bool
  /-- The node that a temporary is the value of, a leaf, if that can be computed again -/
  mayrecalc : Tree T D → Option (T × D)

variable {T N D A : Type}

def Tree.tag : Tree T A → A
  | .leaf _ a | .unary _ a _ | .binary _ a _ _ => a

def Pattern.isTerm : Pattern T N → Bool
  | .nonterm _ => false
  | _ => true

/-- `computekids` -/
def Pattern.kids : Pattern T N → Tree T A → List (Tree T A)
  | .nonterm _, t => [t]
  | .unary _ p, .unary _ _ l => p.kids l
  | .binary _ p q, .binary _ _ l r => p.kids l ++ q.kids r
  | _, _ => []

/-- `computents` -/
def Pattern.nts : Pattern T N → List N
  | .nonterm nt => [nt]
  | .leaf _ => []
  | .unary _ p => p.nts
  | .binary _ p q => p.nts ++ q.nts

/-- `emittest` -/
def test [DecidableEq T] : Pattern T N → Tree T A → Bool
  | .nonterm _, _ => true
  | .leaf op, .leaf op' _ => op = op'
  | .unary op p, .unary op' _ l => op = op' && test p l
  | .binary op p q, .binary op' _ l r => op = op' && test p l && test q r
  | _, _ => false

/-- `emitcost` -/
def emitcost : Pattern T N → Tree T (State N) → Nat
  | .nonterm nt, t => t.tag.cost nt
  | .unary _ p, .unary _ _ l => emitcost p l
  | .binary _ p q, .binary _ _ l r => emitcost p l + emitcost q r
  | _, _ => 0

namespace Grammar
variable [DecidableEq N]

def rulesOf (g : Grammar T N D) (nt : N) : List (Rule T N D) := g.rules.filter (·.lhs = nt)

/-- `rule` counts the rules of each left side. -/
def numbered (before : List (Rule T N D)) : List (Rule T N D) → List (Nat × Rule T N D)
  | [] => []
  | r :: rs => ((before.filter (·.lhs = r.lhs)).length + 1, r) :: numbered (before ++ [r]) rs

def packed (g : Grammar T N D) : List (Nat × Rule T N D) := numbered [] g.rules

/-- `emitstruct`: a number in the bits that the number of rules of the left side needs. -/
def field (g : Grammar T N D) (nt : N) (number : Nat) : Nat :=
  number % (1 <<< ((g.rulesOf nt).length.log2 + 1))

/-- `emitclosure`: the chain rules of a nonterminal, the last one first. -/
def edges (g : Grammar T N D) (a : Tree T D) (nt : N) : List (Edge N Nat) :=
  (g.packed.filterMap fun x =>
    match x.2.pattern with
    | .nonterm m => if m = nt then some ⟨x.2.lhs, x.2.cost a, g.field x.2.lhs x.1⟩ else none
    | _ => none).reverse

variable [Fintype N] [DecidableEq T]

def emitrecord (g : Grammar T N D) (a : Tree T D) (x : Nat × Rule T N D) (c : Nat) (p : State N) :
    State N :=
  improve (g.edges a) (Fintype.card N) x.2.lhs c (g.field x.2.lhs x.1) p

def recalculates (g : Grammar T N D) : Pattern T N → Bool
  | .unary op (.leaf v) => g.indir op && g.vreg v
  | _ => false

def recalc (q p : State N) : State N where
  cost n := if q.cost n = 0 then 0 else p.cost n
  mark n := if q.cost n = 0 then q.mark n else p.mark n

def fresh : State N := ⟨fun _ => 0x7fff, fun _ => 0⟩

/-- `emitcase`: the rules for the terminal of the node `a`, whose kids are labelled in `t`. -/
def emitcase (g : Grammar T N D) (a : Tree T D) (t : Tree T (State N))
    (again : Pattern T N → State N → State N)
    (p : State N) : State N :=
  g.packed.foldl (fun p x =>
    if x.2.pattern.isTerm && test x.2.pattern a then
      g.emitrecord a x (emitcost x.2.pattern t + x.2.cost a) (again x.2.pattern p)
    else p) p

/-- The state of a leaf, at which no rule recomputes anything -/
def leafState (g : Grammar T N D) (x : T × D) : State N :=
  g.emitcase (.leaf x.1 x.2) (.leaf x.1 fresh) (fun _ p => p) fresh

def emitrecalc (g : Grammar T N D) (a : Tree T D) (pattern : Pattern T N) (p : State N) : State N :=
  if g.recalculates pattern then (g.mayrecalc a).elim p fun cse => recalc (g.leafState cse) p else p

/-- `emitlabel` -/
def label (g : Grammar T N D) : Tree T D → Tree T (State N)
  | .leaf op x =>
    .leaf op (g.emitcase (.leaf op x) (.leaf op fresh) (g.emitrecalc (.leaf op x)) fresh)
  | .unary op x l =>
    let l' := g.label l
    .unary op (g.emitcase (.unary op x l) (.unary op fresh l') (g.emitrecalc (.unary op x l)) fresh)
      l'
  | .binary op x l r =>
    let l' := g.label l
    let r' := g.label r
    .binary op (g.emitcase (.binary op x l r) (.binary op fresh l' r')
      (g.emitrecalc (.binary op x l r)) fresh) l' r'

def state (g : Grammar T N D) (a : Tree T D) : State N := (g.label a).tag

/-- `_rule`, by the vector that `emitrule` prints -/
def rule (g : Grammar T N D) (p : State N) (nt : N) : Option (Rule T N D) :=
  match p.mark nt with
  | 0 => none
  | k + 1 => (g.rulesOf nt)[k]?

/-- A temporary that is computed again where it is read. -/
def reused (g : Grammar T N D) (a : Tree T D) (nt : N) : Bool :=
  g.rules.any (fun r => g.recalculates r.pattern && test r.pattern a) &&
    (g.mayrecalc a).elim false fun cse => (g.leafState cse).cost nt = 0

def reuse (g : Grammar T N D) (a : Tree T D) (nt : N) : Tree T D :=
  if g.reused a nt then (g.mayrecalc a).elim a fun cse => .leaf cse.1 cse.2 else a

/-- `reduce`, with the rules in the order in which they are applied, each at its node -/
def reduce (g : Grammar T N D) : Nat → Tree T D → N → Option (List (Rule T N D × Tree T D))
  | 0, _, _ => none
  | fuel + 1, a, nt => do
    let p := g.reuse a nt
    let r ← g.rule (g.state p) nt
    let kids ← ((r.pattern.kids p).zip r.pattern.nts).mapM fun x => g.reduce fuel x.1 x.2
    some (kids.flatten ++ [(r, p)])

end Grammar

/-- Steps that cover a tree as a pattern asks for. -/
inductive Covers [DecidableEq N] [Fintype N] [DecidableEq T] (g : Grammar T N D) :
    Pattern T N → Tree T D → List (Rule T N D × Tree T D) → Prop where
  | rule {r : Rule T N D} {a : Tree T D} {steps : List (Rule T N D × Tree T D)} (mem : r ∈ g.rules)
      (kids : Covers g r.pattern a steps) : Covers g (.nonterm r.lhs) a (steps ++ [(r, a)])
  | reuse {a : Tree T D} {nt : N} {steps : List (Rule T N D × Tree T D)}
    (reused : g.reused a nt = true)
      (again : Covers g (.nonterm nt) (g.reuse a nt) steps) : Covers g (.nonterm nt) a steps
  | leaf (op : T) (x : D) : Covers g (.leaf op) (.leaf op x) []
  | unary {p : Pattern T N} {l : Tree T D} {steps : List (Rule T N D × Tree T D)} (op : T) (x : D)
      (left : Covers g p l steps) : Covers g (.unary op p) (.unary op x l) steps
  | binary {p q : Pattern T N} {l r : Tree T D} {steps later : List (Rule T N D × Tree T D)}
    (op : T) (x : D)
      (left : Covers g p l steps) (right : Covers g q r later) :
      Covers g (.binary op p q) (.binary op x l r) (steps ++ later)

def cost : List (Rule T N D × Tree T D) → Nat
  | [] => 0
  | s :: steps => s.1.cost s.2 + cost steps

theorem cost_append (steps later : List (Rule T N D × Tree T D)) :
    cost (steps ++ later) = cost steps + cost later := by
  induction steps with
  | nil => exact (Nat.zero_add _).symm
  | cons s steps ih => rw [List.cons_append, cost, ih, cost, Nat.add_assoc]

section
variable [DecidableEq N] {g : Grammar T N D} {nt : N}

open Grammar

theorem numbered_lookup {before rs : List (Rule T N D)} {k : Nat} {r : Rule T N D}
    (mem : (k, r) ∈ numbered before rs) :
    r ∈ rs ∧ ∃ j, k = j + 1 ∧ ((before ++ rs).filter (·.lhs = r.lhs))[j]? = some r := by
  induction rs generalizing before with
  | nil => exact nomatch mem
  | cons s rs ih =>
    rcases List.mem_cons.mp mem with first | later
    · obtain ⟨rfl, rfl⟩ := Prod.mk.inj first
      refine ⟨List.mem_cons_self .., _, rfl, ?_⟩
      rw [List.filter_append, List.filter_cons_of_pos (by simp), List.getElem?_append_right
        (Nat.le_refl _), Nat.sub_self]
      rfl
    · obtain ⟨mem, j, is, there⟩ := ih later
      rw [List.append_assoc, List.singleton_append] at there
      exact ⟨List.mem_cons_of_mem _ mem, j, is, there⟩

theorem mem_numbered {before rs : List (Rule T N D)} {r : Rule T N D} (mem : r ∈ rs) :
    ∃ k, (k, r) ∈ numbered before rs := by
  induction rs generalizing before with
  | nil => exact nomatch mem
  | cons s rs ih =>
    rcases List.mem_cons.mp mem with rfl | later
    · exact ⟨_, List.mem_cons_self ..⟩
    · obtain ⟨k, there⟩ : ∃ k, (k, r) ∈ numbered (before ++ [s]) rs := ih later
      exact ⟨k, List.mem_cons_of_mem _ there⟩

theorem rule_field {x : Nat × Rule T N D} (mem : x ∈ g.packed) {p : State N}
    (marked : p.mark x.2.lhs = g.field x.2.lhs x.1) : g.rule p x.2.lhs = some x.2 := by
  obtain ⟨-, j, is, there⟩ := numbered_lookup mem
  have small : j < (g.rulesOf x.2.lhs).length := (List.getElem?_eq_some_iff.mp there).1
  have whole : g.field x.2.lhs x.1 = j + 1 := by
    rw [field, is, Nat.one_shiftLeft]
    refine Nat.mod_eq_of_lt ?_
    have fits := Nat.lt_log2_self (n := (g.rulesOf x.2.lhs).length)
    omega
  rw [Grammar.rule, marked, whole]
  exact there

theorem rule_mem {x : Nat × Rule T N D} (mem : x ∈ g.packed) : x.2 ∈ g.rules :=
  (numbered_lookup mem).1

theorem mem_edges {a : Tree T D} {e : Edge N Nat} :
    e ∈ g.edges a nt ↔ ∃ x ∈ g.packed, x.2.pattern = .nonterm nt ∧
      e = ⟨x.2.lhs, x.2.cost a, g.field x.2.lhs x.1⟩ := by
  rw [edges, List.mem_reverse, List.mem_filterMap]
  constructor
  · rintro ⟨x, mem, is⟩
    refine ⟨x, mem, ?_⟩
    split at is
    · rename_i m pattern
      split at is
      · rename_i same
        exact ⟨same ▸ pattern, (Option.some.inj is).symm⟩
      · exact nomatch is
    · exact nomatch is
  · rintro ⟨x, mem, pattern, rfl⟩
    exact ⟨x, mem, by simp [pattern]⟩

end

section
variable [DecidableEq N] [Fintype N] [DecidableEq T] {g : Grammar T N D} {nt : N} {a : Tree T D}

open Grammar

/-- What is computed again costs no more by a chain rule. -/
def Settled (g : Grammar T N D) : Prop :=
  ∀ a cse, g.mayrecalc a = some cse → ∀ nt, (g.leafState cse).cost nt = 0 →
    ∀ e ∈ g.edges a nt, (g.leafState cse).cost e.head = 0

/-- A rule for the terminal of a node, with its cost there. -/
structure Candidate (g : Grammar T N D) (a : Tree T D) (x : Nat × Rule T N D) (c : Nat) : Prop where
  mem : x ∈ g.packed
  term : x.2.pattern.isTerm = true
  fits : test x.2.pattern a = true
  cost : c = emitcost x.2.pattern (g.label a) + x.2.cost a

inductive Ground (g : Grammar T N D) (a : Tree T D) : N → Nat → Nat → Prop where
  | rule {x : Nat × Rule T N D} {c : Nat} (candidate : Candidate g a x c) :
    Ground g a x.2.lhs c (g.field x.2.lhs x.1)
  | reuse {nt : N} {number : Nat} (reused : g.reused a nt = true) : Ground g a nt 0 number

/-- What the rules gone through have left in the state of a node. -/
structure Labelled (g : Grammar T N D) (a : Tree T D) (rules : List (Nat × Rule T N D))
    (p : State N) : Prop where
  grounded : Grounded (Ground g a) (g.edges a) 0x7fff p
  closed : Closed (g.edges a) p
  rule : ∀ x ∈ rules, ∀ c, Candidate g a x c → p.cost x.2.lhs ≤ c
  reuse : ∀ x ∈ rules, g.recalculates x.2.pattern = true → test x.2.pattern a = true →
    ∀ cse, g.mayrecalc a = some cse → ∀ nt, (g.leafState cse).cost nt = 0 → p.cost nt = 0

theorem labelled_fresh : Labelled g a [] fresh where
  grounded := ⟨fun _ => Nat.le_refl _, fun _ less => absurd less (Nat.lt_irrefl _)⟩
  closed _ _ _ := Nat.le_add_right ..
  rule _ mem := nomatch mem
  reuse _ mem := nomatch mem

theorem reused_of {x : Nat × Rule T N D} (mem : x ∈ g.packed)
    (again : g.recalculates x.2.pattern = true)
    (fits : test x.2.pattern a = true) {cse : T × D} (may : g.mayrecalc a = some cse)
    (free : (g.leafState cse).cost nt = 0) :
    g.reused a nt = true := by
  rw [reused, may, Bool.and_eq_true, List.any_eq_true]
  exact ⟨⟨x.2, rule_mem mem, by rw [again, fits]; rfl⟩, decide_eq_true free⟩

omit [DecidableEq N] [Fintype N] in
theorem recalc_cost_le {p q : State N} : (recalc q p).cost nt ≤ p.cost nt := by
  unfold recalc
  dsimp only
  split
  · exact Nat.zero_le _
  · exact Nat.le_refl _

theorem backed_recalc {p q : State N} (again : ∀ nt, q.cost nt = 0 → g.reused a nt = true)
    (backed : Backed (Ground g a) (g.edges a) p nt) :
      Backed (Ground g a) (g.edges a) (recalc q p) nt := by
  have free {nt : N} (zero : q.cost nt = 0) : Backed (Ground g a) (g.edges a) (recalc q p) nt := by
    refine .base nt ?_
    simp only [recalc, if_pos zero]
    exact .reuse (again nt zero)
  induction backed with
  | base nt ground =>
    by_cases zero : q.cost nt = 0
    · exact free zero
    · refine .base nt ?_
      simpa only [recalc, if_neg zero] using ground
  | edge nt e mem marked above behind ih =>
    by_cases zero : q.cost e.head = 0
    · exact free zero
    · refine .edge nt e mem ?_ ?_ ih
      · simpa only [recalc, if_neg zero] using marked
      · have le : (recalc q p).cost nt ≤ p.cost nt := recalc_cost_le
        simp only [recalc, if_neg zero] at le ⊢
        omega

theorem Labelled.emitrecalc {rules : List (Nat × Rule T N D)} {p : State N}
    (labelled : Labelled g a rules p)
    (settled : Settled g) {x : Nat × Rule T N D} (mem : x ∈ g.packed)
    (fits : test x.2.pattern a = true) :
    Labelled g a rules (g.emitrecalc a x.2.pattern p) ∧
      (g.recalculates x.2.pattern = true → ∀ cse, g.mayrecalc a = some cse →
        ∀ nt, (g.leafState cse).cost nt = 0 →
        (g.emitrecalc a x.2.pattern p).cost nt = 0) := by
  unfold Grammar.emitrecalc
  by_cases again : g.recalculates x.2.pattern = true
  swap
  · rw [if_neg again]
    exact ⟨labelled, fun yes => absurd yes again⟩
  rw [if_pos again]
  cases may : g.mayrecalc a with
  | none => exact ⟨labelled, fun _ q never => nomatch never⟩
  | some cse =>
    have zero {nt : N} (free : (g.leafState cse).cost nt = 0) :
      (recalc (g.leafState cse) p).cost nt = 0 := if_pos free
    have kept {nt : N} (dear : (g.leafState cse).cost nt ≠ 0) :
      (recalc (g.leafState cse) p).cost nt = p.cost nt :=
      if_neg dear
    have back (nt : N) (free : (g.leafState cse).cost nt = 0) : g.reused a nt = true :=
      reused_of mem again fits may free
    rw [Option.elim_some]
    refine ⟨⟨⟨fun nt => recalc_cost_le.trans (labelled.grounded.bound nt), fun nt less => ?_⟩,
      fun nt e inside => ?_,
      fun y done c candidate => recalc_cost_le.trans (labelled.rule y done c candidate),
      fun y done yes there r found nt free => ?_⟩, fun _ r found nt free => ?_⟩
    · by_cases free : (g.leafState cse).cost nt = 0
      · refine .base nt ?_
        rw [zero free]
        exact .reuse (back nt free)
      · rw [kept free] at less
        exact backed_recalc back (labelled.grounded.backed nt less)
    · change (recalc (g.leafState cse) p).cost e.head ≤ (recalc (g.leafState cse) p).cost nt +
        e.weight
      by_cases free : (g.leafState cse).cost nt = 0
      · rw [zero (settled a cse may nt free e inside)]
        exact Nat.zero_le _
      · rw [kept free]
        exact recalc_cost_le.trans (labelled.closed nt e inside)
    · exact zero (Option.some.inj (may.symm.trans found) ▸ free)
    · exact zero (Option.some.inj found ▸ free)

theorem Labelled.emitrecord {rules : List (Nat × Rule T N D)} {p : State N}
    (labelled : Labelled g a rules p)
    {x : Nat × Rule T N D} {c : Nat} (candidate : Candidate g a x c) :
    Labelled g a rules (g.emitrecord a x c p) ∧ (g.emitrecord a x c p).cost x.2.lhs ≤ c where
  left := {
    grounded := improve_grounded labelled.grounded (.rule candidate)
    closed := improve_closed (Nat.le_refl _) labelled.closed
    rule := fun y mem c candidate => improve_le.trans (labelled.rule y mem c candidate)
    reuse := fun y mem again fits q may nt free =>
      Nat.le_zero.mp (improve_le.trans (labelled.reuse y mem again fits q may nt free).le) }
  right := improve_self_le

theorem labelled_emitcase (settled : Settled g) {t : Tree T (State N)}
    (below : ∀ p : Pattern T N, p.isTerm = true → emitcost p t = emitcost p (g.label a)) :
    Labelled g a g.packed (g.emitcase a t (g.emitrecalc a) fresh) := by
  have run : ∀ todo, ∀ rules p, Labelled g a rules p → (∀ x ∈ todo, x ∈ g.packed) →
      Labelled g a (rules ++ todo) (todo.foldl (fun p x =>
        if x.2.pattern.isTerm && test x.2.pattern a then
          g.emitrecord a x (emitcost x.2.pattern t + x.2.cost a) (g.emitrecalc a x.2.pattern p)
        else p) p) := by
    intro todo
    induction todo with
    | nil =>
      intro rules p labelled _
      rwa [List.append_nil]
    | cons x todo ih =>
      intro rules p labelled inside
      have mem := inside x (List.mem_cons_self ..)
      rw [List.append_cons]
      refine ih _ _ ?_ (fun y later => inside y (List.mem_cons_of_mem _ later))
      beta_reduce
      by_cases both : (x.2.pattern.isTerm && test x.2.pattern a) = true
      · rw [if_pos both]
        obtain ⟨term, fits⟩ := Bool.and_eq_true_iff.mp both
        obtain ⟨again, free⟩ := labelled.emitrecalc settled mem fits
        rw [below _ term]
        obtain ⟨now, le⟩ := again.emitrecord ⟨mem, term, fits, rfl⟩
        refine ⟨now.grounded, now.closed, fun y done c candidate => ?_,
          fun y done recalculates there q may nt zero => ?_⟩
        · rcases List.mem_append.mp done with old | new
          · exact now.rule y old c candidate
          · obtain rfl := List.mem_singleton.mp new
            exact candidate.cost ▸ le
        · rcases List.mem_append.mp done with old | new
          · exact now.reuse y old recalculates there q may nt zero
          · obtain rfl := List.mem_singleton.mp new
            exact Nat.le_zero.mp (improve_le.trans (free recalculates q may nt zero).le)
      · rw [if_neg both]
        refine ⟨labelled.grounded, labelled.closed, fun y done c candidate => ?_,
          fun y done again there => ?_⟩
        · rcases List.mem_append.mp done with old | new
          · exact labelled.rule y old c candidate
          · obtain rfl := List.mem_singleton.mp new
            exact absurd (Bool.and_eq_true_iff.mpr ⟨candidate.term, candidate.fits⟩) both
        · rcases List.mem_append.mp done with old | new
          · exact labelled.reuse y old again there
          · obtain rfl := List.mem_singleton.mp new
            refine absurd (Bool.and_eq_true_iff.mpr ⟨?_, there⟩) both
            cases pattern : y.2.pattern with
            | nonterm m =>
              rw [pattern] at again
              exact nomatch again
            | _ => rfl
  exact run g.packed [] fresh labelled_fresh fun _ mem => mem

theorem labelled_state (settled : Settled g) (a : Tree T D) :
    Labelled g a g.packed (g.state a) := by
  cases a with
  | leaf op x =>
    refine labelled_emitcase settled fun p term => ?_
    cases p with
    | nonterm => exact nomatch term
    | _ => rfl
  | unary op x l =>
    refine labelled_emitcase settled fun p term => ?_
    cases p with
    | nonterm => exact nomatch term
    | _ => rfl
  | binary op x l r =>
    refine labelled_emitcase settled fun p term => ?_
    cases p with
    | nonterm => exact nomatch term
    | _ => rfl

theorem not_reused_leaf {op : T} {x : D} : g.reused (.leaf op x) nt = false := by
  have none_fits : (g.rules.any fun r => g.recalculates r.pattern && test r.pattern (.leaf op x)) =
    false := by
    rw [List.any_eq_false]
    intro r _
    rcases r.pattern with _ | _ | ⟨_, _ | _ | _ | _⟩ | _ <;> simp [Grammar.recalculates, test]
  rw [reused, none_fits, Bool.false_and]

theorem state_leaf (cse : T × D) : g.state (.leaf cse.1 cse.2) = g.leafState cse := by
  have same (pattern : Pattern T N) (fits : test pattern (.leaf cse.1 cse.2 : Tree T D) = true)
    (p : State N) :
      g.emitrecalc (.leaf cse.1 cse.2) pattern p = p := by
    rcases pattern with _ | _ | ⟨_, _ | _ | _ | _⟩ | _ <;> first | rfl | cases fits
  change g.emitcase _ _ _ _ = g.emitcase _ _ _ _
  unfold emitcase
  congr
  funext p x
  split
  · rename_i both
    rw [same _ (Bool.and_eq_true_iff.mp both).2]
  · rfl

theorem reuse_of (again : g.reused a nt = true) : ∃ cse, g.mayrecalc a = some cse ∧
    (g.leafState cse).cost nt = 0 ∧
    g.reuse a nt = .leaf cse.1 cse.2 := by
  have both := again
  rw [reused, Bool.and_eq_true] at both
  cases may : g.mayrecalc a with
  | none =>
    rw [may] at both
    exact nomatch both.2
  | some cse =>
    rw [may] at both
    refine ⟨cse, rfl, of_decide_eq_true both.2, ?_⟩
    rw [reuse, if_pos again, may]
    rfl

theorem reused_cost (settled : Settled g) (again : g.reused a nt = true) :
    (g.state a).cost nt = 0 := by
  rw [reused, Bool.and_eq_true, List.any_eq_true] at again
  obtain ⟨⟨r, mem, both⟩, free⟩ := again
  obtain ⟨yes, fits⟩ := Bool.and_eq_true_iff.mp both
  obtain ⟨k, packed⟩ : ∃ k, (k, r) ∈ g.packed := mem_numbered mem
  cases may : g.mayrecalc a with
  | none =>
    rw [may] at free
    exact nomatch free
  | some cse =>
    rw [may] at free
    exact (labelled_state settled a).reuse (k, r) packed yes fits cse may nt
      (of_decide_eq_true free)

theorem emitcost_le (settled : Settled g) {p : Pattern T N} {steps : List (Rule T N D × Tree T D)}
    (covers : Covers g p a steps) : test p a = true ∧ emitcost p (g.label a) ≤ cost steps := by
  induction covers with
  | @rule r a steps mem kids ih =>
    refine ⟨rfl, ?_⟩
    obtain ⟨k, packed⟩ : ∃ k, (k, r) ∈ g.packed := mem_numbered mem
    have labelled := labelled_state settled a
    have total : (g.state a).cost r.lhs ≤ emitcost r.pattern (g.label a) + r.cost a := by
      cases pattern : r.pattern with
      | nonterm m => exact labelled.closed m _ (mem_edges.mpr ⟨(k, r), packed, pattern, rfl⟩)
      | _ => exact pattern ▸ labelled.rule (k, r) packed _ ⟨packed, by simp only [pattern]; rfl, ih.1, rfl⟩
    have all : cost (steps ++ [(r, a)]) = cost steps + r.cost a := by
      rw [cost_append]
      simp [cost]
    rw [all]
    exact total.trans (Nat.add_le_add_right ih.2 _)
  | reuse reused again ih =>
    refine ⟨rfl, ?_⟩
    have free := reused_cost settled reused
    change (g.state _).cost _ ≤ _
    rw [free]
    exact Nat.zero_le _
  | leaf op x => exact ⟨by simp [test], Nat.zero_le _⟩
  | unary op x left ih => exact ⟨by simp [test, ih.1], ih.2⟩
  | binary op x left right ihl ihr =>
    refine ⟨by simp [test, ihl.1, ihr.1], ?_⟩
    rw [cost_append]
    exact Nat.add_le_add ihl.2 ihr.2

/-- The kids that `reduce` goes on with. -/
def reduceAll (g : Grammar T N D) (fuel : Nat) (p : Pattern T N) (a : Tree T D) :
    Option (List (Rule T N D × Tree T D)) :=
  (((p.kids a).zip p.nts).mapM fun x => g.reduce fuel x.1 x.2).map List.flatten

/-- What is recorded as less than the bound has a cover of that cost, and `reduce` finds it. -/
def Reached (g : Grammar T N D) (p : Pattern T N) (a : Tree T D) : Prop :=
  test p a = true → emitcost p (g.label a) < 0x7fff →
    ∃ steps, Covers g p a steps ∧ cost steps = emitcost p (g.label a) ∧
      ∃ enough, ∀ fuel, enough ≤ fuel → reduceAll g fuel p a = some steps

theorem reduce_succ {fuel : Nat} (fresh : g.reused a nt = false) {r : Rule T N D}
    (is : g.rule (g.state a) nt = some r) :
    g.reduce (fuel + 1) a nt = (reduceAll g fuel r.pattern a).map (· ++ [(r, a)]) := by
  have stays : g.reuse a nt = a := by
    rw [reuse, fresh]
    rfl
  simp only [Grammar.reduce, stays, is, reduceAll, Option.bind_eq_bind, Option.bind_some]
  cases ((r.pattern.kids a).zip r.pattern.nts).mapM fun x => g.reduce fuel x.1 x.2 <;> rfl

theorem reduce_reused {fuel : Nat} (again : g.reused a nt = true) :
    g.reduce fuel a nt = g.reduce fuel (g.reuse a nt) nt := by
  obtain ⟨cse, -, -, is⟩ := reuse_of again
  cases fuel with
  | zero => rfl
  | succ fuel =>
    have stays : g.reuse (g.reuse a nt) nt = g.reuse a nt := by
      rw [is, reuse, not_reused_leaf]
      rfl
    simp only [Grammar.reduce, stays]

theorem reduceAll_nonterm {fuel : Nat} : reduceAll g fuel (.nonterm nt) a = g.reduce fuel a nt := by
  simp only [reduceAll, Pattern.kids, Pattern.nts, List.zip_cons_cons, List.zip_nil_left,
    List.mapM_cons, List.mapM_nil]
  cases g.reduce fuel a nt <;> simp

omit [DecidableEq N] [Fintype N] in
theorem kids_length {p : Pattern T N} {a : Tree T A} (fits : test p a = true) :
    (p.kids a).length = p.nts.length := by
  induction p generalizing a with
  | nonterm nt => rfl
  | leaf op => cases a <;> rfl
  | unary op p ih =>
    cases a with
    | unary op' x l =>
      simp only [test, Bool.and_eq_true] at fits
      exact ih fits.2
    | _ => exact nomatch fits
  | binary op p q ihp ihq =>
    cases a with
    | binary op' x l r =>
      simp only [test, Bool.and_eq_true] at fits
      simp only [Pattern.kids, Pattern.nts, List.length_append, ihp fits.1.2, ihq fits.2]
    | _ => exact nomatch fits

theorem reduceAll_binary {fuel : Nat} {p q : Pattern T N} {op op' : T} {x : D} {l r : Tree T D}
    {steps later : List (Rule T N D × Tree T D)}
    (fits : test p l = true) (left : reduceAll g fuel p l = some steps)
    (right : reduceAll g fuel q r = some later) :
    reduceAll g fuel (.binary op p q) (.binary op' x l r) = some (steps ++ later) := by
  unfold reduceAll at left right
  obtain ⟨ls, hl, rfl⟩ := Option.map_eq_some_iff.mp left
  obtain ⟨rs, hr, rfl⟩ := Option.map_eq_some_iff.mp right
  simp only [reduceAll, Pattern.kids, Pattern.nts, List.zip_append (kids_length fits),
    List.mapM_append, hl, hr]
  simp

theorem reached_term {p : Pattern T N} (term : p.isTerm = true)
    (below : match a with
      | .leaf _ _ => True
      | .unary _ _ l => ∀ p : Pattern T N, Reached g p l
      | .binary _ _ l r => ∀ p : Pattern T N, Reached g p l ∧ Reached g p r) : Reached g p a := by
  intro fits small
  cases p with
  | nonterm => exact nomatch term
  | leaf op =>
    cases a with
    | leaf op' x =>
      obtain rfl : op = op' := of_decide_eq_true fits
      exact ⟨[], .leaf op x, rfl, 0, fun _ _ => rfl⟩
    | _ => exact nomatch fits
  | unary op p =>
    cases a with
    | unary op' x l =>
      simp only [test, Bool.and_eq_true, decide_eq_true_eq] at fits
      obtain ⟨rfl, fits⟩ := fits
      obtain ⟨steps, covers, costs, enough, reduced⟩ := below p fits small
      exact ⟨steps, .unary op x covers, costs, enough, reduced⟩
    | _ => exact nomatch fits
  | binary op p q =>
    cases a with
    | binary op' x l r =>
      simp only [test, Bool.and_eq_true, decide_eq_true_eq] at fits
      obtain ⟨⟨rfl, fits⟩, fits'⟩ := fits
      have sum : emitcost (.binary op p q) (g.label (.binary op x l r)) = emitcost p
        (g.label l) + emitcost q (g.label r) := rfl
      rw [sum] at small ⊢
      obtain ⟨steps, covers, costs, enough, reduced⟩ := (below p).1 fits (by omega)
      obtain ⟨later, covers', costs', enough', reduced'⟩ := (below q).2 fits' (by omega)
      refine ⟨steps ++ later, .binary op x covers covers', by rw [cost_append, costs, costs'],
        max enough enough', fun fuel le => ?_⟩
      exact reduceAll_binary fits (reduced fuel (by omega)) (reduced' fuel (by omega))
    | _ => exact nomatch fits

theorem reached_reused (settled : Settled g) (again : g.reused a nt = true)
    (there : Reached g (.nonterm nt) (g.reuse a nt)) : Reached g (.nonterm nt) a := by
  intro _ _
  have free := reused_cost settled again
  obtain ⟨cse, -, zero, is⟩ := reuse_of again
  have free_there : (g.state (g.reuse a nt)).cost nt = 0 := by rw [is, state_leaf, zero]
  have under : emitcost (.nonterm nt) (g.label (g.reuse a nt)) < 0x7fff := by
    change (g.state (g.reuse a nt)).cost nt < 0x7fff
    rw [free_there]
    decide
  obtain ⟨steps, covers, costs, enough, reduced⟩ := there rfl under
  refine ⟨steps, .reuse again covers, ?_, enough, fun fuel le => ?_⟩
  · change cost steps = (g.state a).cost nt
    rw [costs, free]
    exact free_there
  · rw [reduceAll_nonterm, reduce_reused again, ← reduceAll_nonterm]
    exact reduced fuel le

theorem reached_rule (settled : Settled g) {r : Rule T N D} (mem : r ∈ g.rules)
    (is : g.rule (g.state a) r.lhs = some r)
    (fits : test r.pattern a = true) (small : emitcost r.pattern (g.label a) < 0x7fff)
    (total : (g.state a).cost r.lhs = emitcost r.pattern (g.label a) + r.cost a)
    (reached : Reached g r.pattern a)
    (there : g.reused a r.lhs = true → Reached g (.nonterm r.lhs) (g.reuse a r.lhs)) :
      Reached g (.nonterm r.lhs) a := by
  cases again : g.reused a r.lhs with
  | true => exact reached_reused settled again (there again)
  | false =>
    intro _ _
    change ∃ steps, _ ∧ _ = (g.state a).cost r.lhs ∧ _
    obtain ⟨steps, covers, costs, enough, reduced⟩ := reached fits small
    refine ⟨steps ++ [(r, a)], .rule mem covers, ?_, enough + 1, fun fuel le => ?_⟩
    · rw [cost_append, costs, total]
      simp [cost]
    · obtain ⟨fuel, rfl⟩ : ∃ k, fuel = k + 1 := ⟨fuel - 1, by omega⟩
      rw [reduceAll_nonterm, reduce_succ again is, reduced fuel (by omega)]
      rfl

theorem reached_nonterm (settled : Settled g)
    (terms : ∀ p : Pattern T N, p.isTerm = true → Reached g p a)
    (there : ∀ nt, g.reused a nt = true → Reached g (.nonterm nt) (g.reuse a nt))
    (backed : Backed (Ground g a) (g.edges a) (g.state a) nt) : Reached g (.nonterm nt) a := by
  have labelled := labelled_state settled a
  induction backed with
  | base nt ground =>
    generalize hc : (g.state a).cost nt = c at ground
    generalize hm : (g.state a).mark nt = number at ground
    cases ground with
    | @rule x c candidate =>
      intro fits small
      have under : c < 0x7fff := hc ▸ small
      have total := candidate.cost
      exact reached_rule settled (rule_mem candidate.mem)
        (rule_field candidate.mem hm) candidate.fits (by omega)
        (hc.trans total) (terms _ candidate.term) (there _) fits small
    | reuse again => exact reached_reused settled again (there _ again)
  | edge nt e mem marked above behind ih =>
    intro fits small
    have met := labelled.closed nt e mem
    obtain ⟨x, packed, pattern, rfl⟩ := mem_edges.mp mem
    have under : (g.state a).cost x.2.lhs < 0x7fff := small
    have exact_cost : (g.state a).cost x.2.lhs = (g.state a).cost nt + x.2.cost a :=
      Nat.le_antisymm met above
    have is_rule : g.rule (g.state a) x.2.lhs = some x.2 := rule_field packed marked
    refine reached_rule settled (rule_mem packed) is_rule (by rw [pattern]; rfl) ?_ ?_
      (pattern ▸ ih) (there _) fits small
    · rw [pattern]
      change (g.state a).cost nt < _
      omega
    · rw [pattern]
      exact exact_cost

theorem reached_all (settled : Settled g)
    (terms : ∀ p : Pattern T N, p.isTerm = true → Reached g p a)
    (there : ∀ nt, g.reused a nt = true → Reached g (.nonterm nt) (g.reuse a nt))
    (p : Pattern T N) : Reached g p a := by
  cases term : p.isTerm with
  | true => exact terms p term
  | false =>
    cases p with
    | nonterm nt =>
      intro fits small
      exact reached_nonterm settled terms there
        ((labelled_state settled a).grounded.backed nt small) fits small
    | _ => exact nomatch term

theorem reached_leaf (settled : Settled g) (op : T) (x : D) (p : Pattern T N) :
    Reached g p (.leaf op x) := by
  refine reached_all settled (fun p term => reached_term term trivial) (fun nt again => ?_) p
  rw [not_reused_leaf] at again
  cases again

theorem reached (settled : Settled g) (a : Tree T D) (p : Pattern T N) : Reached g p a := by
  have there (a : Tree T D) (nt : N) (again : g.reused a nt = true) :
    Reached g (.nonterm nt) (g.reuse a nt) := by
    obtain ⟨cse, -, -, is⟩ := reuse_of again
    rw [is]
    exact reached_leaf settled cse.1 cse.2 _
  induction a generalizing p with
  | leaf op x => exact reached_leaf settled op x p
  | unary op x l ih => exact reached_all settled (fun p term => reached_term term ih) (there _) p
  | binary op x l r ihl ihr =>
    exact reached_all settled (fun p term => reached_term term fun p => ⟨ihl p, ihr p⟩) (there _) p

/-- What `reduce` applies to a labelled tree is a cover of it by rules, and no cover costs less. -/
theorem reduce_least (settled : Settled g) (a : Tree T D) (nt : N) :
    (∀ steps, Covers g (.nonterm nt) a steps → (g.state a).cost nt ≤ cost steps) ∧
      ((g.state a).cost nt < 0x7fff → ∃ steps, Covers g (.nonterm nt) a steps ∧
        cost steps = (g.state a).cost nt ∧
        ∃ enough, ∀ fuel, enough ≤ fuel → g.reduce fuel a nt = some steps) := by
  refine ⟨fun steps covers => (emitcost_le settled covers).2, fun small => ?_⟩
  obtain ⟨steps, covers, costs, enough, reduced⟩ := reached settled a (.nonterm nt) rfl small
  exact ⟨steps, covers, costs, enough, fun fuel le => reduceAll_nonterm.symm.trans
    (reduced fuel le)⟩

end

/-! Rules of `lc3.md` for the assignment of a sum to a local variable. -/
inductive Op where
  | cnst | addrl | vreg | indir | add | asgn
  deriving DecidableEq

inductive Nonterm where
  | reg | stmt | c6 | addr | spill | c5
  deriving DecidableEq

instance : Fintype Nonterm where
  elems := {.reg, .stmt, .c6, .addr, .spill, .c5}
  complete nt := by cases nt <;> decide

/-- `range`, of the constant or the offset that stands in the node -/
def range (lo hi : Int) (a : Tree Op Int) : Nat := if lo ≤ a.tag ∧ a.tag ≤ hi then 0 else 0x7fff

def lc3 : Grammar Op Nonterm Int where
  rules :=
    [⟨.reg, .unary .indir (.leaf .vreg), fun _ => 0⟩,
     ⟨.stmt, .binary .asgn (.leaf .vreg) (.nonterm .reg), fun _ => 0⟩,
     ⟨.stmt, .nonterm .reg, fun _ => 0⟩,
     ⟨.c6, .leaf .cnst, range (-32) 31⟩,
     ⟨.addr, .binary .add (.nonterm .reg) (.nonterm .c6), fun _ => 0⟩,
     ⟨.addr, .nonterm .reg, fun _ => 0⟩,
     ⟨.addr, .leaf .addrl, range (-32) 31⟩,
     ⟨.reg, .leaf .addrl, fun _ => 2⟩,
     ⟨.reg, .leaf .cnst, fun _ => 2⟩,
     ⟨.spill, .leaf .addrl, fun a => if range (-32) 31 a = 0 then 1 else 0⟩,
     ⟨.stmt, .binary .asgn (.nonterm .spill) (.nonterm .reg), fun _ => 3⟩,
     ⟨.stmt, .binary .asgn (.nonterm .addr) (.nonterm .reg), fun _ => 1⟩,
     ⟨.reg, .unary .indir (.nonterm .addr), fun _ => 1⟩,
     ⟨.c5, .leaf .cnst, range (-16) 15⟩,
     ⟨.reg, .binary .add (.nonterm .reg) (.nonterm .c5), fun _ => 1⟩,
     ⟨.reg, .binary .add (.nonterm .reg) (.nonterm .reg), fun _ => 1⟩]
  indir op := op = .indir
  vreg op := op = .vreg
  -- the temporary of the register 3 is the value of the constant 3
  mayrecalc a :=
    match a with
    | .unary .indir _ (.leaf .vreg 3) => some (.cnst, 3)
    | _ => none

theorem settled_lc3 : Settled lc3 := by
  intro a cse may nt free
  have three : cse = (.cnst, 3) := by
    simp only [lc3] at may
    split at may <;> cases may
    rfl
  rw [three] at free ⊢
  have costs : ∀ nt, (lc3.leafState (.cnst, 3)).cost nt = 0 → nt = .c5 ∨ nt = .c6 := by decide
  rcases costs nt free with rfl | rfl
  · exact fun e never => nomatch never
  · exact fun e never => nomatch never

/-- `i = j + t`, with a local variable that `str` does not reach on the left side and a temporary
that holds 3 -/
def farSum : Tree Op Int :=
  .binary .asgn 0 (.leaf .addrl (-40))
    (.binary .add 0 (.unary .indir 0 (.leaf .addrl (-2))) (.unary .indir 0 (.leaf .vreg 3)))

theorem reduce_least_farSum :
    ((∀ steps, Covers lc3 (.nonterm .stmt) farSum steps → 5 ≤ cost steps) ∧
    ∃ steps, Covers lc3 (.nonterm .stmt) farSum steps ∧ cost steps = 5) ∧
    lc3.reused (.unary .indir 0 (.leaf .vreg 3)) .c5 = true := by
  have costs : (lc3.state farSum).cost .stmt = 5 := by decide
  have both := reduce_least settled_lc3 farSum .stmt
  rw [costs] at both
  obtain ⟨steps, covers, is, -⟩ := both.2 (by decide)
  exact ⟨⟨both.1, steps, covers, is⟩, by decide⟩

end LC3Tools.Lburg
