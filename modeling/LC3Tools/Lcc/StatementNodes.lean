import LC3Tools.Lcc.Statements

/-! The nodes of a statement, without the code list, and its places in the source. -/
namespace LC3Tools.Stmt
open Labels CodeList

variable {X S : Type}

theorem before_nodes (cs : List (Call (Instr X))) (rest : Calls (Instr X)) :
    (before cs rest).nodes = nodes cs ++ rest.nodes := by
  induction cs with
  | nil => rfl
  | cons c cs ih =>
    rw [nodes_cons, List.append_assoc, ← ih]
    rfl

theorem nodes_nil : nodes ([] : List (Call (Instr X))) = [] := rfl

theorem nodes_walkCond (c : Cond X) (tlab flab : Nat) :
    nodes (walkCond c tlab flab) = nodes (listnodes tlab flab c) := by
  rw [walkCond, nodes_append]
  exact List.append_nil _

def evalNodes (x : Option X) : List (Node Nat (Instr X)) := x.elim [] fun x => [.act (.eval x) []]

theorem nodes_walkExpr (x : Option X) : nodes (walkExpr x) = evalNodes x := by
  cases x <;> rfl

namespace Statement

def nodes (front : Front X) (exit : Nat) (a : Statement X) (loop : Nat) (swp : Option Nat) :
    List (Node Nat (Instr X)) :=
  (a.calls front exit loop swp .done).nodes

section
variable {front : Front X} {exit : Nat}

theorem calls_nodes (a : Statement X) (loop : Nat) (swp : Option Nat) (rest : Calls (Instr X)) :
    (a.calls front exit loop swp rest).nodes = a.nodes front exit loop swp ++ rest.nodes := by
  induction a generalizing loop swp rest with
  | expr | empty | nil | brk | cont | ret | goto =>
    simp only [nodes, calls, before_nodes, Calls.nodes, List.append_nil, List.nil_append]
  | seq a b iha ihb | ifelse lab c a b iha ihb =>
    rw [nodes]
    simp only [calls, before_nodes, iha, ihb, Calls.nodes, List.append_assoc, List.nil_append,
      List.cons_append]
  | compound a ih | ifstmt lab c a ih | whilestmt lab c a ih | dostmt lab c a ih
  | forstmt lab e1 e2 e3 a ih
  | swstmt lab save sym label a ih | caseLab lab vals a ih | deflt a ih | stmtlabel lab a ih =>
    rw [nodes]
    simp only [calls, before_nodes, ih, Calls.nodes, List.append_assoc, List.nil_append,
      List.cons_append]

theorem nodes_expr (x : X) (waits : Bool) (loop : Nat) (swp : Option Nat) :
    (expr x waits).nodes front exit loop swp = [.act (.eval x) []] := by
  cases waits <;> rfl

theorem nodes_compound (a : Statement X) (loop : Nat) (swp : Option Nat) :
    (compound a).nodes front exit loop swp = a.nodes front exit loop swp := by
  rw [nodes, calls, before_nodes, calls_nodes, before_nodes]
  exact List.append_nil _

theorem nodes_seq (a b : Statement X) (loop : Nat) (swp : Option Nat) :
    (seq a b).nodes front exit loop swp = a.nodes front exit loop swp ++
      b.nodes front exit loop swp := by
  rw [nodes, calls, calls_nodes]
  rfl

theorem nodes_ifstmt (lab : Nat) (c : Cond X) (a : Statement X) (loop : Nat) (swp : Option Nat) :
    (ifstmt lab c a).nodes front exit loop swp =
      Stmt.nodes (listnodes 0 lab c) ++ (a.nodes front exit loop swp ++ [.label lab]) := by
  rw [nodes, calls]
  simp only [before_nodes, calls_nodes, nodes_cons, nodes_walkCond, nodes_nil, Call.nodes,
    Calls.nodes, List.nil_append,
    List.append_nil]

theorem nodes_ifelse (lab : Nat) (c : Cond X) (a b : Statement X) (loop : Nat) (swp : Option Nat) :
    (ifelse lab c a b).nodes front exit loop swp = Stmt.nodes
    (listnodes 0 lab c) ++ (a.nodes front exit loop swp ++
      .jump (lab + 1) :: .label lab :: (b.nodes front exit loop swp ++ [.label (lab + 1)])) := by
  rw [nodes, calls]
  simp only [before_nodes, calls_nodes, nodes_cons, nodes_walkCond, nodes_nil, Call.nodes,
    Calls.nodes, List.nil_append,
    List.append_nil, List.cons_append]

/-- A loop from its first label. -/
def loopNodes (front : Front X) (exit : Nat) (lab : Nat) (e3 : Option X) (e2 : Option (Cond X))
    (tested : Bool)
    (a : Statement X) (swp : Option Nat) : List (Node Nat (Instr X)) :=
  .label lab :: (a.nodes front exit lab swp ++
    (Stmt.nodes (loopEnd lab e3 e2 tested) ++ [.label (lab + 2)]))

theorem nodes_whilestmt (lab : Nat) (c : Cond X) (a : Statement X) (loop : Nat) (swp : Option Nat) :
    (whilestmt lab c a).nodes front exit loop swp =
      .jump (lab + 1) :: loopNodes front exit lab none (some c) false a swp := by
  rw [nodes, calls, before_nodes, calls_nodes, before_nodes]
  rfl

theorem nodes_dostmt (lab : Nat) (c : Cond X) (a : Statement X) (loop : Nat) (swp : Option Nat) :
    (dostmt lab c a).nodes front exit loop swp = loopNodes front exit lab none
    (some c) false a swp := by
  rw [nodes, calls, before_nodes, calls_nodes, before_nodes]
  rfl

/-- The test in front of a for statement. -/
def isTested (front : Front X) (e1 : Option X) (e2 : Option (Cond X)) : Bool :=
  e2.isSome && !foldcond front e1 e2

theorem nodes_forstmt (lab : Nat) (e1 : Option X) (e2 : Option (Cond X)) (e3 : Option X)
    (a : Statement X) (loop : Nat)
    (swp : Option Nat) : (forstmt lab e1 e2 e3 a).nodes front exit loop swp =
      evalNodes e1 ++ ((if isTested front e1 e2 then [.jump (lab + 3)] else []) ++
        loopNodes front exit lab e3 e2 (isTested front e1 e2) a swp) := by
  rw [nodes, calls]
  simp only [before_nodes, calls_nodes, nodes_cons, nodes_append, nodes_walkExpr, nodes_nil,
    Call.nodes, Calls.nodes,
    List.nil_append, List.append_nil, List.append_assoc, List.cons_append]
  change evalNodes e1 ++
    (Stmt.nodes (if isTested front e1 e2 = true then [.branch (lab + 3)] else []) ++
    loopNodes front exit lab e3 e2 (isTested front e1 e2) a swp) = _
  cases isTested front e1 e2 <;> rfl

theorem nodes_swstmt (lab : Nat) (save : Option X) (sym label : Nat) (a : Statement X) (loop : Nat)
    (swp : Option Nat) :
    (swstmt lab save sym label a).nodes front exit loop swp = evalNodes save ++
      (Stmt.nodes (dispatch front.dense (front.isUnsigned sym) sym lab
        (a.cases []).reverse label) ++
        (a.nodes front exit loop (some lab) ++
          ((if a.hasDefault then [] else [.label lab]) ++ [.label (lab + 1)]))) := by
  rw [nodes, calls]
  simp only [before_nodes, calls_nodes, nodes_cons, nodes_append, nodes_walkExpr, nodes_nil,
    Call.nodes, Calls.nodes,
    List.nil_append, List.append_nil, List.cons_append]
  cases a.hasDefault <;> rfl

theorem nodes_caseLab (lab : Nat) (vals : List Int) (a : Statement X) (loop : Nat)
    (swp : Option Nat) :
    (caseLab lab vals a).nodes front exit loop swp = .label lab :: a.nodes front exit loop swp :=
      rfl

theorem nodes_deflt (a : Statement X) (loop : Nat) (swp : Option Nat) :
    (deflt a).nodes front exit loop swp = .label (swp.getD 0) :: a.nodes front exit loop swp := rfl

theorem nodes_stmtlabel (lab : Nat) (a : Statement X) (loop : Nat) (swp : Option Nat) :
    (stmtlabel lab a).nodes front exit loop swp = .label lab :: a.nodes front exit loop swp := rfl

theorem nodes_ret (x : Option X) (loop : Nat) (swp : Option Nat) :
    (ret x).nodes front exit loop swp = evalNodes x ++ [.jump exit] := by
  rw [nodes, calls]
  simp only [before_nodes, nodes_cons, nodes_append, nodes_walkExpr, nodes_nil, Call.nodes,
    Calls.nodes, List.nil_append,
    List.append_nil, List.cons_append]

end

end Statement

theorem funcdefn_nodes (front : Front X) (exit : Nat) (body : Statement X) :
    (funcdefn front exit body).nodes = body.nodes front exit 0 none ++ [.label exit] := by
  rw [funcdefn, Statement.calls_nodes, Statement.nodes_compound]
  rfl

/-- The test at the end of a loop. -/
def testNodes (lab : Nat) (e2 : Option (Cond X)) (tested : Bool) : List (Node Nat (Instr X)) :=
  e2.elim [.jump lab] fun c =>
    (if tested then [.label (lab + 3)] else []) ++ nodes (listnodes lab 0 c)

theorem nodes_loopEnd (lab : Nat) (e3 : Option X) (e2 : Option (Cond X)) (tested : Bool) :
    nodes (loopEnd lab e3 e2 tested) = .label
      (lab + 1) :: (evalNodes e3 ++ testNodes lab e2 tested) := by
  unfold loopEnd
  cases e2 with
  | none =>
    simp only [List.cons_append, nodes_cons, nodes_append, nodes_walkExpr]
    rfl
  | some c =>
    cases tested <;>
      simp only [List.cons_append, nodes_cons, nodes_append, nodes_walkExpr, Option.elim_some,
        nodes_walkCond, if_true,
        if_false, Bool.false_eq_true, List.nil_append] <;> rfl

section
variable {lang : Language X S} {K : Nat → Meaning S} {fall : Meaning S} {lab : Nat} {s : S}

theorem den_evalNodes (x : Option X) (code : List (Node Nat (Instr X))) (s : S) :
    den (exec lang) K fall (evalNodes x ++ code) s = den (exec lang) K fall code
      (effect lang x s) := by
  cases x <;> rfl

theorem solves_evalNodes (x : Option X) : Solves (exec lang) K fall (evalNodes x) := by
  cases x <;> trivial

theorem den_unless {c : Cond X} (asked : 0 < lab) (positive : c.Positive)
    (solves : Solves (exec lang) K fall (nodes (listnodes 0 lab c))) (s : S) :
    den (exec lang) K fall (nodes (listnodes 0 lab c)) s =
      (if (c.value lang s).1 then fall else K lab) (c.value lang s).2 := by
  rw [den_listnodes c (.inr ⟨rfl, asked.ne'⟩) positive solves]
  cases (c.value lang s).1
  · exact congrFun (goto_pos asked.ne') _
  · rfl

theorem den_if {c : Cond X} (asked : 0 < lab) (positive : c.Positive)
    (solves : Solves (exec lang) K fall (nodes (listnodes lab 0 c))) (s : S) :
    den (exec lang) K fall (nodes (listnodes lab 0 c)) s =
      (if (c.value lang s).1 then K lab else fall) (c.value lang s).2 := by
  rw [den_listnodes c (.inl ⟨asked.ne', rfl⟩) positive solves]
  cases (c.value lang s).1
  · rfl
  · exact congrFun (goto_pos asked.ne') _

/-- What the test of a loop decides. -/
def testing (lang : Language X S) (e2 : Option (Cond X)) (again fall : Meaning S) : Meaning S :=
  fun s => (if (test lang e2 s).1 then again else fall) (test lang e2 s).2

theorem den_testNodes {e2 : Option (Cond X)} {tested : Bool} (asked : 0 < lab)
    (positive : ∀ c ∈ e2, c.Positive)
    (solves : ∀ c ∈ e2, Solves (exec lang) K fall (nodes (listnodes lab 0 c))) :
    den (exec lang) K fall (testNodes lab e2 tested) = testing lang e2 (K lab) fall := by
  funext s
  cases e2 with
  | none => rfl
  | some c =>
    rw [testNodes, Option.elim_some, den_append]
    refine Eq.trans ?_ (den_if asked (positive c rfl) (solves c rfl) s)
    cases tested <;> rfl

theorem solves_testNodes {e2 : Option (Cond X)} {tested : Bool} (asked : 0 < lab)
    (positive : ∀ c ∈ e2, c.Positive) :
    Solves (exec lang) K fall (testNodes lab e2 tested) ↔
      (∀ c ∈ e2, Solves (exec lang) K fall (nodes (listnodes lab 0 c))) ∧
      (tested = true → e2.isSome = true → K (lab + 3) = testing lang e2 (K lab) fall) := by
  cases e2 with
  | none => simp [testNodes, Solves]
  | some c =>
    have meant (solves : Solves (exec lang) K fall (nodes (listnodes lab 0 c))) :
        den (exec lang) K fall (nodes (listnodes lab 0 c)) = testing lang (some c) (K lab) fall :=
      funext (den_if asked (positive c rfl) solves)
    cases tested with
    | false => simp [testNodes]
    | true =>
      simp only [testNodes, Option.elim_some, if_true, List.singleton_append, Solves,
        Option.mem_some_iff, forall_eq',
        Option.isSome_some, forall_const]
      constructor
      · rintro ⟨here, inside⟩
        exact ⟨inside, here.trans (meant inside)⟩
      · rintro ⟨inside, here⟩
        exact ⟨here.trans (meant inside).symm, inside⟩

end

/-! The cases of a switch statement and its entries. -/

/-- The cases of an entry. -/
def Entry.own : Entry → List Case
  | .case lab vals => vals.map fun v => (v, lab)
  | _ => []

theorem caselabels_map (lab : Nat) (vals : List Int) (cs : List Case) :
    vals.foldl (fun cs val => caselabel val lab cs) cs =
      (vals.map fun v => (v, lab)).foldl (fun cs c => caselabel c.1 c.2 cs) cs := by
  rw [List.foldl_map]

theorem own_hide (es : List (Entry × Place X)) :
    (es.map fun e => (e.1.hide, e.2)).flatMap (fun e => e.1.own) = [] := by
  induction es with
  | nil => rfl
  | cons e es ih =>
    rw [List.map_cons, List.flatMap_cons, ih]
    cases e.1 <;> rfl

namespace Statement

theorem cases_perm (a : Statement X) (k : Kont X) (cs : List Case) :
    (a.cases cs).Perm ((entries a k).flatMap (fun e => e.1.own) ++ cs) := by
  induction a generalizing k cs with
  | expr | empty | nil | brk | cont | ret | goto => exact .refl _
  | compound a ih | ifstmt lab c a ih | whilestmt lab c a ih | dostmt lab c a ih
    | forstmt lab e1 e2 e3 a ih => exact ih _ cs
  | deflt a ih | stmtlabel lab a ih => exact ih k cs
  | swstmt lab save sym label a ih =>
    rw [cases, entries, own_hide]
    exact .refl _
  | caseLab lab vals a ih =>
    refine (ih k _).trans ?_
    rw [caselabels_map]
    refine ((caselabels_perm _ cs).append_left _).trans ?_
    rw [entries, List.flatMap_cons, ← List.append_assoc]
    exact List.perm_append_comm.append_right cs
  | seq a b iha ihb =>
    refine (ihb k _).trans (((iha (.seq b k) cs).append_left _).trans ?_)
    rw [entries, List.flatMap_append, ← List.append_assoc]
    exact List.perm_append_comm.append_right cs
  | ifelse lab c a b iha ihb =>
    refine (ihb k _).trans (((iha k cs).append_left _).trans ?_)
    rw [entries, List.flatMap_append, ← List.append_assoc]
    exact List.perm_append_comm.append_right cs

theorem cases_descending (a : Statement X) {cs : List Case} (sorted : Descending cs) :
    Descending (a.cases cs) := by
  induction a generalizing cs with
  | expr | empty | nil | brk | cont | ret | goto | swstmt => exact sorted
  | compound a ih | ifstmt lab c a ih | whilestmt lab c a ih | dostmt lab c a ih
  | forstmt lab e1 e2 e3 a ih
  | deflt a ih | stmtlabel lab a ih => exact ih sorted
  | caseLab lab vals a ih =>
    rw [cases, caselabels_map]
    exact ih (caselabels_descending _ sorted)
  | seq a b iha ihb | ifelse lab c a b iha ihb => exact ihb (iha sorted)

theorem hasDefault_eq (a : Statement X) (k : Kont X) :
    a.hasDefault = (entries a k).any fun e => e.1.isDefault := by
  induction a generalizing k with
  | expr | empty | nil | brk | cont | ret | goto => rfl
  | compound a ih | ifstmt lab c a ih | whilestmt lab c a ih | dostmt lab c a ih
    | forstmt lab e1 e2 e3 a ih => exact ih _
  | deflt a ih => rfl
  | caseLab lab vals a ih | stmtlabel lab a ih => exact ih k
  | swstmt lab save sym label a ih =>
    rw [entries, List.any_map]
    refine (List.any_eq_false.mpr fun e _ => ?_).symm
    cases here : e.1 <;> simp [here, Entry.hide, Entry.isDefault]
  | seq a b iha ihb
    | ifelse lab c a b iha ihb => rw [hasDefault, entries, List.any_append, ← iha, ← ihb]

theorem default_lab (a : Statement X) (k : Kont X) : ∀ e ∈ entries a k, e.1.isDefault = true →
    e.1.lab = k.swp.getD 0 := by
  induction a generalizing k with
  | expr | empty | nil | brk | cont | ret | goto => exact fun e mem => absurd mem List.not_mem_nil
  | compound a ih | ifstmt lab c a ih => exact ih k
  | whilestmt lab c a ih | dostmt lab c a ih | forstmt lab e1 e2 e3 a ih => exact ih _
  | deflt a ih | caseLab lab vals a ih | stmtlabel lab a ih =>
    intro e mem is
    rcases List.mem_cons.mp mem with rfl | later
    · first | rfl | cases is
    · exact ih k e later is
  | swstmt lab save sym label a ih =>
    intro e mem is
    obtain ⟨e', -, rfl⟩ := List.mem_map.mp mem
    cases here : e'.1 <;> simp [here, Entry.hide, Entry.isDefault] at is
  | seq a b iha ihb =>
    intro e mem
    rcases List.mem_append.mp mem with inside | inside
    · exact iha (.seq b k) e inside
    · exact ihb k e inside
  | ifelse lab c a b iha ihb =>
    intro e mem
    rcases List.mem_append.mp mem with inside | inside
    · exact iha k e inside
    · exact ihb k e inside

end Statement

/-- The dispatch chooses the entry that the source does, where the labels mean their places. -/
theorem select_target {S : Type} {K : Nat → Meaning S} {W : Place X → Meaning S} {a : Statement X}
    {k : Kont X} {lab : Nat}
    (x : Int) (swp : k.swp = some lab) (once : (values (a.cases [])).Nodup)
    (meant : ∀ e ∈ entries a k, K e.1.lab = W e.2)
    (missing : a.hasDefault = false → K lab = W (.resume k)) :
    K (target lab x (a.cases []).reverse) = W (select x a k) := by
  have perm := a.cases_perm k []
  rw [List.append_nil] at perm
  have once' : (values (a.cases []).reverse).Nodup := by
    rw [values, List.map_reverse]
    exact List.nodup_reverse.mpr once
  unfold select
  cases taken : (entries a k).find? fun e => e.1.takes x with
  | some e =>
    have mem := List.mem_of_find?_eq_some taken
    have takes := List.find?_some taken
    have in_cases : (x, e.1.lab) ∈ (a.cases []).reverse := by
      refine List.mem_reverse.mpr (perm.mem_iff.mpr (List.mem_flatMap.mpr ⟨e, mem, ?_⟩))
      cases here : e.1 with
      | case lab vals =>
        rw [here] at takes
        exact List.mem_map.mpr ⟨x, of_decide_eq_true takes, rfl⟩
      | label | deflt | inner =>
        rw [here] at takes
        cases takes
    rw [target_eq once' in_cases]
    exact meant e mem
  | none =>
    have other : x ∉ values (a.cases []).reverse := by
      intro mem
      obtain ⟨c, in_cases, rfl⟩ := List.mem_map.mp mem
      obtain ⟨e, there, own⟩ := List.mem_flatMap.mp (perm.mem_iff.mp (List.mem_reverse.mp in_cases))
      have never := List.find?_eq_none.mp taken e there
      cases here : e.1 with
      | case lab vals =>
        rw [here] at own never
        obtain ⟨v, inside, rfl⟩ := List.mem_map.mp own
        exact never (decide_eq_true inside)
      | label | deflt | inner =>
        rw [here] at own
        exact List.not_mem_nil own
    rw [target_of_not_mem other]
    cases default : (entries a k).find? fun e => e.1.isDefault with
    | some e =>
      have mem := List.mem_of_find?_eq_some default
      have is := List.find?_some default
      have here : e.1.lab = lab := by
        rw [a.default_lab k e mem is, swp]
        rfl
      exact here ▸ meant e mem
    | none =>
      refine missing ?_
      rw [a.hasDefault_eq k]
      exact List.any_eq_false.mpr (List.find?_eq_none.mp default)

/-! What the statements of a function keep to. -/

namespace Statement

/-- Whether nodes wait in the forest behind the statement. -/
def waits : Statement X → Bool → Bool
  | expr _ w, _ => w
  | empty, before | nil, before => before
  | seq a b, before => b.waits (a.waits before)
  | ifelse _ _ _ b, _ => b.waits false
  | caseLab _ _ a, _ | deflt a, _ | stmtlabel _ a, _ => a.waits false
  | compound _, _ | ifstmt .., _ | whilestmt .., _ | dostmt .., _ | forstmt .., _ | swstmt ..,
    _ | brk, _ | cont, _ | ret _, _
  | goto _, _ => false

/-- No case twice, no break or case outside, labels that count up like `genlabel` does. The body of
a switch statement leaves no nodes in the forest: these would be written in front of its dispatch.
And the selector is not past the signed integers: the dispatch takes it for one. -/
def Legal (front : Front X) (lang : Language X S) : Statement X → Nat → Option Nat → Prop
  | compound a, loop, swp | stmtlabel _ a, loop, swp => a.Legal front lang loop swp
  | seq a b, loop, swp => a.Legal front lang loop swp ∧ b.Legal front lang loop swp
  | ifstmt lab c a, loop, swp => 0 < lab ∧ c.Positive ∧ a.Legal front lang loop swp
  | ifelse lab c a b, loop, swp =>
    0 < lab ∧ c.Positive ∧ a.Legal front lang loop swp ∧ b.Legal front lang loop swp
  | whilestmt lab c a, _, swp | dostmt lab c a, _, swp =>
    0 < lab ∧ (∀ m ∈ swp, m < lab) ∧ c.Positive ∧ a.Legal front lang lab swp
  | forstmt lab _ e2 _ a, _, swp =>
    0 < lab ∧ (∀ m ∈ swp, m < lab) ∧ (∀ c ∈ e2, c.Positive) ∧ a.Legal front lang lab swp
  | swstmt lab _ sym _ a, loop, _ =>
    loop < lab ∧ (values (a.cases [])).Nodup ∧ (a.hasDefault = true → a.waits false = false) ∧
    (front.isUnsigned sym = true → ∀ s, 0 ≤ lang.get sym s) ∧ a.Legal front lang loop (some lab)
  | caseLab _ _ a, loop, swp | deflt a, loop, swp => swp ≠ none ∧ a.Legal front lang loop swp
  | brk, loop, swp => 0 < loop ∨ swp ≠ none
  | cont, loop, _ => 0 < loop
  | expr .., _, _ | empty, _, _ | nil, _, _ | ret _, _, _ | goto _, _, _ => True

end Statement

end LC3Tools.Stmt
