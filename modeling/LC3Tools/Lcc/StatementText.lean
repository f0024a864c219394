import LC3Tools.Lcc.StatementRuns

/-! What is generated for a function does what its statements do. -/
namespace LC3Tools.Stmt
open Labels CodeList

variable {X S : Type} {front : Front X} {lang : Language X S} {exit : Nat} {body : Statement X}

/-! Where nodes wait in the forest. -/

/-- Whether nodes wait behind calls. -/
def pendings (cs : List (Call (Instr X))) (waiting : Bool) : Bool :=
  cs.foldl (fun w c => c.pending w) waiting

theorem before_pending (cs : List (Call (Instr X))) (rest : Calls (Instr X)) (waiting : Bool) :
    (before cs rest).pending waiting = rest.pending (pendings cs waiting) := by
  induction cs generalizing waiting with
  | nil => rfl
  | cons c cs ih => exact ih (c.pending waiting)

theorem pendings_append (cs ds : List (Call (Instr X))) (waiting : Bool) :
    pendings (cs ++ ds) waiting = pendings ds (pendings cs waiting) := List.foldl_append

theorem pendings_cons (c : Call (Instr X)) (cs : List (Call (Instr X))) (waiting : Bool) :
    pendings (c :: cs) waiting = pendings cs (c.pending waiting) := rfl

theorem pendings_walkCond (c : Cond X) (tlab flab : Nat) (waiting : Bool) :
    pendings (walkCond c tlab flab) waiting = false := by
  rw [walkCond, pendings_append]
  rfl

theorem pendings_loopEnd (lab : Nat) (e3 : Option X) (e2 : Option (Cond X)) (tested : Bool)
    (waiting : Bool) :
    pendings (loopEnd lab e3 e2 tested) waiting = false := by
  unfold loopEnd
  cases e2 with
  | none =>
    rw [pendings_append]
    rfl
  | some c =>
    rw [Option.elim_some, pendings_append, pendings_append, pendings_cons, pendings_walkCond]

namespace Statement

theorem calls_pending (a : Statement X) (loop : Nat) (swp : Option Nat) (rest : Calls (Instr X))
    (waiting : Bool) :
    (a.calls front exit loop swp rest).pending waiting = rest.pending (a.waits waiting) := by
  induction a generalizing loop swp rest waiting with
  | expr x w => cases w <;> rfl
  | empty | nil | brk | cont | goto => rfl
  | ret x =>
    rw [calls, before_pending, pendings_append]
    rfl
  | compound a ih =>
    rw [calls, before_pending, ih, before_pending]
    rfl
  | seq a b iha ihb => rw [calls, iha, ihb, waits]
  | ifstmt lab c a ih =>
    rw [calls, before_pending, ih, before_pending]
    rfl
  | ifelse lab c a b iha ihb =>
    rw [calls, before_pending, iha, before_pending, ihb]
    rfl
  | whilestmt lab c a ih | dostmt lab c a ih | forstmt lab e1 e2 e3 a ih =>
    rw [calls, before_pending, ih, before_pending, pendings_loopEnd]
    rfl
  | swstmt lab save sym label a ih =>
    rw [calls, before_pending]
    rfl
  | caseLab lab vals a ih | deflt a ih | stmtlabel lab a ih =>
    rw [calls, before_pending, ih]
    rfl

/-- The labels that are defined only if they have a reference. -/
def closed : Statement X → List Nat
  | compound a | ifstmt _ _ a | caseLab _ _ a | deflt a | stmtlabel _ a => a.closed
  | seq a b => a.closed ++ b.closed
  | ifelse lab _ a b => a.closed ++ (b.closed ++ [lab + 1])
  | whilestmt lab _ a | dostmt lab _ a | forstmt lab _ _ _ a => a.closed ++ [lab + 2]
  | swstmt lab _ _ _ a => a.closed ++ [lab + 1]
  | expr .. | empty | nil | brk | cont | ret _ | goto _ => []

end Statement

theorem before_closed (cs : List (Call (Instr X))) (rest : Calls (Instr X)) :
    (before cs rest).closed = rest.closed := by
  induction cs with
  | nil => rfl
  | cons c cs ih => exact ih

theorem Statement.calls_closed (a : Statement X) (loop : Nat) (swp : Option Nat)
    (rest : Calls (Instr X)) :
    (a.calls front exit loop swp rest).closed = a.closed ++ rest.closed := by
  induction a generalizing loop swp rest with
  | expr x w => cases w <;> rfl
  | empty | nil | brk | cont | goto => rfl
  | ret x => rw [calls, before_closed]; rfl
  | compound a ih | ifstmt lab c a ih => rw [calls, closed, before_closed, ih, before_closed]
  | caseLab lab vals a ih | deflt a ih | stmtlabel lab a ih => rw [calls, closed, before_closed, ih]
  | seq a b iha ihb => rw [calls, iha, ihb, closed, List.append_assoc]
  | ifelse lab c a b iha ihb =>
    rw [calls, closed, before_closed, iha, before_closed, ihb]
    simp [Calls.closed]
  | whilestmt lab c a ih | dostmt lab c a ih | forstmt lab e1 e2 e3 a ih =>
    rw [calls, closed, before_closed, ih, before_closed]
    simp [Calls.closed]
  | swstmt lab save sym label a ih =>
    rw [calls, closed, before_closed, Calls.closed, ih, before_closed]
    rfl

/-! Labels that are always defined. -/

theorem count_default (a : Statement X) (k : Kont X) (there : a.hasDefault = true) :
    ∃ e ∈ entries a k, e.1.lab = k.swp.getD 0 := by
  rw [a.hasDefault_eq k, List.any_eq_true] at there
  obtain ⟨e, mem, is⟩ := there
  exact ⟨e, mem, a.default_lab k e mem is⟩

theorem mem_caseLabs {a : Statement X} (k : Kont X) {l : Nat}
    (mem : l ∈ caseLabs (a.cases []).reverse) :
    ∃ e ∈ entries a k, e.1.lab = l := by
  obtain ⟨c, in_cases, rfl⟩ := List.mem_map.mp mem
  have there := (a.cases_perm k []).mem_iff.mp (List.mem_reverse.mp in_cases)
  rw [List.append_nil] at there
  obtain ⟨e, entry, own⟩ := List.mem_flatMap.mp there
  refine ⟨e, entry, ?_⟩
  cases here : e.1 with
  | case lab vals =>
    rw [here] at own
    obtain ⟨v, -, rfl⟩ := List.mem_map.mp own
    rfl
  | label | deflt | inner =>
    rw [here] at own
    exact absurd own List.not_mem_nil

theorem closed_entries (a : Statement X) (k : Kont X) (l : Nat) :
    a.closed.count l + ((entries a k).map fun e => e.1.lab).count l ≤
      (labels (a.nodes front exit k.loopLab k.swp)).count l := by
  induction a generalizing k with
  | expr | empty | nil | brk | cont | ret | goto => exact Nat.zero_le _
  | compound a ih =>
    rw [Statement.nodes_compound]
    exact ih k
  | ifstmt lab c a ih =>
    have in_a := ih k
    rw [Statement.nodes_ifstmt, Statement.closed, entries]
    simp only [labels_append, List.count_append]
    omega
  | seq a b iha ihb =>
    have in_a : _ ≤ (labels (a.nodes front exit k.loopLab k.swp)).count l := iha (.seq b k)
    have in_b := ihb k
    rw [Statement.nodes_seq, Statement.closed, entries]
    simp only [labels_append, List.map_append, List.count_append]
    omega
  | ifelse lab c a b iha ihb =>
    have in_a := iha k
    have in_b := ihb k
    rw [Statement.nodes_ifelse, Statement.closed, entries]
    simp only [labels_append, labels_cons, Node.labels, List.map_append, List.count_append,
      List.count_cons, List.count_nil]
    omega
  | whilestmt lab c a ih =>
    have in_a : _ ≤ (labels (a.nodes front exit lab k.swp)).count l :=
      ih (.loop lab none (some c) a k)
    rw [Statement.nodes_whilestmt, Statement.closed, entries, labels_cons]
    simp only [List.count_append, count_loopNodes, List.count_cons, List.count_nil]
    omega
  | dostmt lab c a ih =>
    have in_a : _ ≤ (labels (a.nodes front exit lab k.swp)).count l :=
      ih (.loop lab none (some c) a k)
    rw [Statement.nodes_dostmt, Statement.closed, entries, count_loopNodes]
    simp only [List.count_append, List.count_cons, List.count_nil]
    omega
  | forstmt lab e1 e2 e3 a ih =>
    have in_a : _ ≤ (labels (a.nodes front exit lab k.swp)).count l := ih (.loop lab e3 e2 a k)
    rw [Statement.nodes_forstmt, Statement.closed, entries, labels_append, labels_append]
    simp only [List.count_append, count_loopNodes, List.count_cons, List.count_nil]
    omega
  | swstmt lab save sym label a ih =>
    have in_a : _ ≤ (labels (a.nodes front exit k.loopLab (some lab))).count l := ih (.switch lab k)
    have hidden : ((entries (.swstmt lab save sym label a) k).map fun e => e.1.lab) =
        (entries a (.switch lab k)).map fun e => e.1.lab := by
      rw [entries, List.map_map]
      exact List.map_congr_left fun e _ => Entry.lab_hide e.1
    rw [Statement.nodes_swstmt, Statement.closed, hidden]
    simp only [labels_append, labels_cons, Node.labels, List.count_append, List.count_cons,
      List.count_nil]
    omega
  | caseLab lab vals a ih | deflt a ih | stmtlabel lab a ih =>
    have in_a := ih k
    rw [Statement.closed, entries, List.map_cons, List.count_cons]
    first
      | rw [Statement.nodes_caseLab, labels_cons, List.count_append]
      | rw [Statement.nodes_deflt, labels_cons, List.count_append]
      | rw [Statement.nodes_stmtlabel, labels_cons, List.count_append]
    simp only [Entry.lab_label, Entry.lab_case, Entry.lab_deflt, Node.labels, List.count_cons,
      List.count_nil, beq_iff_eq]
    omega

theorem closed_le (a : Statement X) (k : Kont X) (l : Nat) :
    a.closed.count l ≤ (labels (a.nodes front exit k.loopLab k.swp)).count l :=
  le_trans (Nat.le_add_right ..) (closed_entries a k l)

theorem closed_lt {a : Statement X} {k : Kont X} {l : Nat}
    (entry : ∃ e ∈ entries a k, e.1.lab = l) :
    a.closed.count l < (labels (a.nodes front exit k.loopLab k.swp)).count l := by
  obtain ⟨e, mem, rfl⟩ := entry
  have here : _ ≤ (labels (a.nodes front exit k.loopLab k.swp)).count e.1.lab :=
    closed_entries a k e.1.lab
  have positive : 0 < ((entries a k).map fun e => e.1.lab).count e.1.lab :=
    List.count_pos_iff.mpr (List.mem_map_of_mem (f := fun e => e.1.lab) mem)
  omega

theorem tables_evalNodes (x : Option X) : nodesTables (evalNodes x) = [] := by
  cases x <;> rfl

theorem tables_testNodes (lab : Nat) (e2 : Option (Cond X)) (tested : Bool) :
    nodesTables (testNodes lab e2 tested) = [] := by
  cases e2 with
  | none => rfl
  | some c =>
    rw [testNodes, Option.elim_some, nodesTables_append, tables_listnodes]
    cases tested <;> rfl

theorem tables_loopNodes (lab : Nat) (e3 : Option X) (e2 : Option (Cond X)) (tested : Bool)
    (a : Statement X)
    (swp : Option Nat) : nodesTables (Statement.loopNodes front exit lab e3 e2 tested a swp) =
      nodesTables (a.nodes front exit lab swp) := by
  change nodesTables (a.nodes front exit lab swp ++ _) = _
  rw [nodesTables_append, nodes_loopEnd, nodesTables_append]
  change _ ++ (nodesTables (evalNodes e3 ++ testNodes lab e2 tested) ++ []) = _
  rw [nodesTables_append, tables_evalNodes, tables_testNodes, List.nil_append, List.nil_append,
    List.append_nil]

theorem tables_closed (a : Statement X) (k : Kont X) (l : Nat)
    (listed : l ∈ nodesTables (a.nodes front exit k.loopLab k.swp)) :
    a.closed.count l < (labels (a.nodes front exit k.loopLab k.swp)).count l := by
  induction a generalizing k with
  | empty | nil | brk | cont | goto => exact absurd listed List.not_mem_nil
  | expr x w =>
    rw [Statement.nodes_expr] at listed
    exact absurd listed List.not_mem_nil
  | ret x =>
    rw [Statement.nodes_ret, nodesTables_append, tables_evalNodes] at listed
    exact absurd listed List.not_mem_nil
  | compound a ih =>
    rw [Statement.nodes_compound] at listed ⊢
    exact ih k listed
  | caseLab lab vals a ih | deflt a ih | stmtlabel lab a ih =>
    have in_a := ih k listed
    rw [Statement.closed]
    first
      | rw [Statement.nodes_caseLab, labels_cons, List.count_append]
      | rw [Statement.nodes_deflt, labels_cons, List.count_append]
      | rw [Statement.nodes_stmtlabel, labels_cons, List.count_append]
    omega
  | ifstmt lab c a ih =>
    rw [Statement.nodes_ifstmt, nodesTables_append, nodesTables_append, tables_listnodes,
      List.nil_append, List.mem_append] at listed
    have in_a := ih k (listed.resolve_right List.not_mem_nil)
    rw [Statement.nodes_ifstmt, Statement.closed]
    simp only [labels_append, List.count_append]
    omega
  | seq a b iha ihb =>
    have le_a : _ ≤ (labels (a.nodes front exit k.loopLab k.swp)).count l :=
      closed_le a (.seq b k) l
    have le_b : _ ≤ (labels (b.nodes front exit k.loopLab k.swp)).count l := closed_le b k l
    rw [Statement.nodes_seq, nodesTables_append] at listed
    rw [Statement.nodes_seq, Statement.closed, labels_append, List.count_append, List.count_append]
    rcases List.mem_append.mp listed with inside | inside
    · have in_a : _ < (labels (a.nodes front exit k.loopLab k.swp)).count l := iha (.seq b k) inside
      omega
    · have in_b := ihb k inside
      omega
  | ifelse lab c a b iha ihb =>
    have le_a : _ ≤ (labels (a.nodes front exit k.loopLab k.swp)).count l := closed_le a k l
    have le_b : _ ≤ (labels (b.nodes front exit k.loopLab k.swp)).count l := closed_le b k l
    rw [Statement.nodes_ifelse, nodesTables_append, nodesTables_append, tables_listnodes,
      List.nil_append, List.mem_append] at listed
    rw [Statement.nodes_ifelse, Statement.closed]
    simp only [labels_append, labels_cons, Node.labels, List.count_append, List.count_cons,
      List.count_nil]
    rcases listed with inside | inside
    · have in_a := iha k inside
      omega
    · change l ∈ nodesTables (b.nodes front exit k.loopLab k.swp ++ [.label (lab + 1)]) at inside
      rw [nodesTables_append, List.mem_append] at inside
      have in_b := ihb k (inside.resolve_right List.not_mem_nil)
      omega
  | whilestmt lab c a ih =>
    rw [Statement.nodes_whilestmt] at listed
    change l ∈ nodesTables
      (Statement.loopNodes front exit lab none (some c) false a k.swp) at listed
    rw [tables_loopNodes] at listed
    have in_a : _ < (labels (a.nodes front exit lab k.swp)).count l :=
      ih (.loop lab none (some c) a k) listed
    rw [Statement.nodes_whilestmt, Statement.closed, labels_cons]
    simp only [List.count_append, count_loopNodes, List.count_cons, List.count_nil]
    omega
  | dostmt lab c a ih =>
    rw [Statement.nodes_dostmt, tables_loopNodes] at listed
    have in_a : _ < (labels (a.nodes front exit lab k.swp)).count l :=
      ih (.loop lab none (some c) a k) listed
    rw [Statement.nodes_dostmt, Statement.closed]
    simp only [List.count_append, count_loopNodes, List.count_cons, List.count_nil]
    omega
  | forstmt lab e1 e2 e3 a ih =>
    have no_table : nodesTables (if Statement.isTested front e1 e2 then [.jump (lab + 3)]
        else ([] : List (Node Nat (Instr X)))) = [] := by
      cases Statement.isTested front e1 e2 <;> rfl
    rw [Statement.nodes_forstmt, nodesTables_append, nodesTables_append, tables_evalNodes, no_table,
      tables_loopNodes] at listed
    have in_a : _ < (labels (a.nodes front exit lab k.swp)).count l :=
      ih (.loop lab e3 e2 a k) listed
    rw [Statement.nodes_forstmt, Statement.closed, labels_append, labels_append]
    simp only [List.count_append, count_loopNodes, List.count_cons, List.count_nil]
    omega
  | swstmt lab save sym label a ih =>
    have le_a : _ ≤ (labels (a.nodes front exit k.loopLab (some lab))).count l :=
      closed_le a (.switch lab k) l
    rw [Statement.nodes_swstmt, nodesTables_append, nodesTables_append, nodesTables_append,
      tables_evalNodes, List.nil_append,
      List.mem_append, List.mem_append] at listed
    rw [Statement.nodes_swstmt, Statement.closed]
    simp only [labels_append, labels_cons, Node.labels, List.count_append, List.count_cons,
      List.count_nil]
    have in_entry (entry : ∃ e ∈ entries a (.switch lab k), e.1.lab = l) :
        _ < (labels (a.nodes front exit k.loopLab (some lab))).count l := closed_lt entry
    rcases listed with table | inside | never
    · rcases (jumpsTo_dispatch (X := X) _ _ label).2 l table with rfl | own
      · cases there : a.hasDefault with
        | true =>
          have := in_entry (count_default a _ there)
          omega
        | false =>
          simp only [Bool.false_eq_true, if_false, labels_cons, Node.labels, List.count_append,
            List.count_cons, List.count_nil,
            beq_self_eq_true, if_true]
          omega
      · have := in_entry (mem_caseLabs _ own)
        omega
    · have in_a : _ < (labels (a.nodes front exit k.loopLab (some lab))).count l :=
        ih (.switch lab k) inside
      omega
    · cases there : a.hasDefault <;> rw [there] at never <;> exact absurd never List.not_mem_nil

/-- Where a statement may jump to outside. -/
def Outside (exit : Nat) (users : List Nat) (k : Kont X) (l : Nat) : Prop :=
  l = exit ∨ l ∈ users ∨ 0 < k.loopLab ∧ l = k.loopLab + 1 ∨
    (0 < k.loopLab ∨ k.swp ≠ none) ∧ l = breakLab k.loopLab k.swp

theorem targets_evalNodes (x : Option X) : targets (evalNodes x) = [] := by
  cases x <;> rfl

theorem breakLab_loop {lab : Nat} {swp : Option Nat} (order : ∀ m ∈ swp, m < lab) :
    breakLab lab swp = lab + 2 := by
  cases swp with
  | none => rfl
  | some m => exact if_neg (not_lt.mpr (le_of_lt (order m rfl)))

theorem targets_testNodes {lab : Nat} {e2 : Option (Cond X)} {tested : Bool} {l : Nat}
    (target : l ∈ targets (testNodes lab e2 tested)) :
    l = lab ∨ l ∈ (e2.elim [] fun c => labels (nodes (listnodes lab 0 c)) : List Nat) := by
  cases e2 with
  | none => exact .inl (List.mem_singleton.mp target)
  | some c =>
    have in_cond : l ∈ targets (nodes (listnodes lab 0 c)) := by cases tested <;> exact target
    rcases targets_listnodes c lab 0 l in_cond with ⟨rfl, -⟩ | ⟨-, never⟩ | own
    · exact .inl rfl
    · exact absurd rfl never
    · exact .inr own

theorem targets_loopEnd {lab : Nat} {e3 : Option X} {e2 : Option (Cond X)} {tested : Bool} {l : Nat}
    (target : l ∈ targets (nodes (loopEnd lab e3 e2 tested))) :
    l = lab ∨ l ∈ (e2.elim [] fun c => labels (nodes (listnodes lab 0 c)) : List Nat) := by
  rw [nodes_loopEnd] at target
  change l ∈ targets (evalNodes e3 ++ testNodes lab e2 tested) at target
  rw [targets_append, targets_evalNodes, List.nil_append] at target
  exact targets_testNodes target

theorem targets_loopNodes (lab : Nat) (e3 : Option X) (e2 : Option (Cond X)) (tested : Bool)
    (a : Statement X)
    (swp : Option Nat) (l : Nat)
      (target : l ∈ targets (Statement.loopNodes front exit lab e3 e2 tested a swp)) :
    l ∈ targets (a.nodes front exit lab swp) ∨
      l ∈ labels (Statement.loopNodes front exit lab e3 e2 tested a swp) := by
  change l ∈ targets (a.nodes front exit lab swp ++ _) at target
  rw [targets_append, targets_append, List.mem_append, List.mem_append] at target
  rcases target with inside | at_end | never
  · exact .inl inside
  · refine .inr (List.count_pos_iff.mp ?_)
    rw [count_loopNodes]
    rcases targets_loopEnd at_end with rfl | own
    · simp
    · have := List.count_pos_iff.mpr own
      omega
  · exact absurd never List.not_mem_nil

theorem outside_loop {users : List Nat} {k : Kont X} {lab l : Nat} {e3 : Option X}
    {e2 : Option (Cond X)} {a : Statement X}
    (order : ∀ m ∈ k.swp, m < lab) (outside : Outside exit users (.loop lab e3 e2 a k) l) :
    l = lab + 1 ∨ l = lab + 2 ∨ Outside exit users k l := by
  rcases outside with rfl | user | ⟨-, rfl⟩ | ⟨-, rfl⟩
  · exact .inr (.inr (.inl rfl))
  · exact .inr (.inr (.inr (.inl user)))
  · exact .inl rfl
  · exact .inr (.inl (breakLab_loop order))

theorem mem_labels_loopNodes {lab l : Nat} {e3 : Option X} {e2 : Option (Cond X)} {tested : Bool}
    {a : Statement X}
    {swp : Option Nat} (mem : l = lab + 1 ∨ l = lab + 2 ∨ l ∈ labels (a.nodes front exit lab swp)) :
    l ∈ labels (Statement.loopNodes front exit lab e3 e2 tested a swp) := by
  refine List.count_pos_iff.mp ?_
  rw [count_loopNodes]
  rcases mem with rfl | rfl | inside
  · simp
  · simp
  · have := List.count_pos_iff.mpr inside
    omega

theorem targets_loop {users : List Nat} {k : Kont X} {lab : Nat} {e3 : Option X}
    {e2 : Option (Cond X)} {tested : Bool}
    {a : Statement X} {l : Nat} (order : ∀ m ∈ k.swp, m < lab)
    (inside : l ∈ targets (a.nodes front exit lab k.swp) →
      l ∈ labels (a.nodes front exit lab k.swp) ∨ Outside exit users (.loop lab e3 e2 a k) l)
    (target : l ∈ targets (Statement.loopNodes front exit lab e3 e2 tested a k.swp)) :
    l ∈ labels (Statement.loopNodes front exit lab e3 e2 tested a k.swp) ∨
      Outside exit users k l := by
  rcases targets_loopNodes _ _ _ _ _ _ _ target with in_a | own
  · rcases inside in_a with mem | out
    · exact .inl (mem_labels_loopNodes (.inr (.inr mem)))
    · rcases outside_loop order out with here | here | there
      · exact .inl (mem_labels_loopNodes (.inl here))
      · exact .inl (mem_labels_loopNodes (.inr (.inl here)))
      · exact .inr there
  · exact .inl own

theorem entry_mem {a : Statement X} {k : Kont X} {l : Nat}
    (entry : ∃ e ∈ entries a k, e.1.lab = l) :
    l ∈ labels (a.nodes front exit k.loopLab k.swp) :=
  List.count_pos_iff.mp (Nat.zero_lt_of_lt (closed_lt entry))

/-- A label to which the nodes of a statement jump is theirs, or one outside. -/
def Targeted (front : Front X) (lang : Language X S) (exit : Nat) (users : List Nat) (l : Nat)
    (a : Statement X) : Prop :=
  ∀ k : Kont X, a.Legal front lang k.loopLab k.swp → (∀ l ∈ a.gotos, l ∈ users) →
    l ∈ targets (a.nodes front exit k.loopLab k.swp) →
    l ∈ labels (a.nodes front exit k.loopLab k.swp) ∨ Outside exit users k l

section
variable {users : List Nat} {l : Nat}

theorem targeted_ifelse {lab : Nat} {c : Cond X} {a b : Statement X}
    (iha : Targeted front lang exit users l a) (ihb : Targeted front lang exit users l b) :
    Targeted front lang exit users l (.ifelse lab c a b) := by
  intro k legal gotos target
  rw [Statement.nodes_ifelse, targets_append, targets_append, targets_cons, targets_cons,
    targets_append] at target
  replace gotos := List.forall_mem_append.mp gotos
  rw [Statement.nodes_ifelse]
  simp only [labels_append, labels_cons, Node.labels, List.mem_append] at target ⊢
  rcases target with test | inside | behind | never | inside | never
  · rcases targets_listnodes c 0 lab l test with ⟨-, never⟩ | ⟨rfl, -⟩ | own
    · exact absurd rfl never
    · exact .inl (.inr (.inr (.inr (.inl (List.mem_singleton_self _)))))
    · exact .inl (.inl own)
  · exact (iha k legal.2.2.1 gotos.1 inside).imp_left fun mem => .inr (.inl mem)
  · rw [List.mem_singleton.mp behind]
    exact .inl (.inr (.inr (.inr (.inr (.inr (.inl (List.mem_singleton_self _)))))))
  · exact absurd never List.not_mem_nil
  · exact (ihb k legal.2.2.2 gotos.2 inside).imp_left fun mem => .inr
      (.inr (.inr (.inr (.inl mem))))
  · exact absurd never List.not_mem_nil

theorem targeted_forstmt {lab : Nat} {e1 e3 : Option X} {e2 : Option (Cond X)} {a : Statement X}
    (ih : Targeted front lang exit users l a) :
    Targeted front lang exit users l (.forstmt lab e1 e2 e3 a) := by
  intro k legal gotos target
  rw [Statement.nodes_forstmt, targets_append, targets_append, targets_evalNodes,
    List.nil_append] at target
  rw [Statement.nodes_forstmt, labels_append, labels_append, labels_evalNodes, List.nil_append]
  rcases List.mem_append.mp target with first | later
  · refine .inl (List.mem_append_right _ (List.count_pos_iff.mp ?_))
    rw [count_loopNodes]
    cases tested : Statement.isTested front e1 e2 with
    | true =>
      rw [tested] at first
      have some_test : e2.isSome = true := (Bool.and_eq_true_iff.mp tested).1
      rw [List.mem_singleton.mp first, some_test]
      simp
    | false =>
      rw [tested] at first
      exact absurd first List.not_mem_nil
  · have here := targets_loop legal.2.1 (ih (.loop lab e3 e2 a k) legal.2.2.2 gotos) later
    exact here.imp_left (List.mem_append_right _)

theorem targeted_swstmt {lab sym label : Nat} {save : Option X} {a : Statement X}
    (ih : Targeted front lang exit users l a) :
    Targeted front lang exit users l (.swstmt lab save sym label a) := by
  intro k legal gotos target
  rw [Statement.nodes_swstmt, targets_append, targets_append, targets_append, targets_evalNodes,
    List.nil_append] at target
  rw [Statement.nodes_swstmt, labels_append, labels_append, labels_append, labels_append,
    labels_evalNodes, List.nil_append]
  simp only [List.mem_append] at target ⊢
  have entry (there : ∃ e ∈ entries a (.switch lab k), e.1.lab = l) :
    l ∈ labels (a.nodes front exit k.loopLab (some lab)) :=
    entry_mem there
  rcases target with own | inside | never
  · rcases (jumpsTo_dispatch (X := X) _ _ label).1 l own with here | rfl | own
    · exact .inl (.inl here)
    · cases there : a.hasDefault with
      | true => exact .inl (.inr (.inl (entry (count_default a _ there))))
      | false => exact .inl (.inr (.inr (.inl (List.mem_singleton_self _))))
    · exact .inl (.inr (.inl (entry (mem_caseLabs _ own))))
  · have here : l ∈ labels (a.nodes front exit k.loopLab (some lab)) ∨ _ :=
      ih (.switch lab k) legal.2.2.2.2 gotos inside
    rcases here with mem | rfl | user | next | ⟨-, leaves⟩
    · exact .inl (.inr (.inl mem))
    · exact .inr (.inl rfl)
    · exact .inr (.inr (.inl user))
    · exact .inr (.inr (.inr (.inl next)))
    · rw [leaves]
      refine .inl (.inr (.inr (.inr ?_)))
      change (if k.loopLab < lab then lab + 1 else k.loopLab + 2) ∈ _
      rw [if_pos legal.1]
      exact List.mem_singleton_self _
  · cases there : a.hasDefault <;> rw [there] at never <;> exact absurd never List.not_mem_nil

theorem targeted (a : Statement X) : Targeted front lang exit users l a := by
  induction a with
  | empty | nil =>
    intro k legal gotos target
    exact absurd target List.not_mem_nil
  | brk =>
    intro k legal gotos target
    exact .inr (.inr (.inr (.inr ⟨legal, List.mem_singleton.mp target⟩)))
  | cont =>
    intro k legal gotos target
    exact .inr (.inr (.inr (.inl ⟨legal, List.mem_singleton.mp target⟩)))
  | goto lab =>
    intro k legal gotos target
    exact .inr (.inr (.inl (gotos l target)))
  | expr x w =>
    intro k legal gotos target
    rw [Statement.nodes_expr] at target
    exact absurd target List.not_mem_nil
  | ret x =>
    intro k legal gotos target
    rw [Statement.nodes_ret, targets_append, targets_evalNodes] at target
    exact .inr (.inl (List.mem_singleton.mp target))
  | compound a ih =>
    intro k legal gotos target
    rw [Statement.nodes_compound] at target ⊢
    exact ih k legal gotos target
  | caseLab lab vals a ih | deflt a ih =>
    intro k legal gotos target
    exact (ih k legal.2 gotos target).imp_left (List.mem_cons_of_mem _)
  | stmtlabel lab a ih =>
    intro k legal gotos target
    exact (ih k legal gotos target).imp_left (List.mem_cons_of_mem _)
  | seq a b iha ihb =>
    intro k legal gotos target
    rw [Statement.nodes_seq, targets_append] at target
    replace gotos := List.forall_mem_append.mp gotos
    rw [Statement.nodes_seq, labels_append, List.mem_append]
    rcases List.mem_append.mp target with inside | inside
    · have here : l ∈ labels (a.nodes front exit k.loopLab k.swp) ∨ Outside exit users k l :=
        iha (.seq b k) legal.1 gotos.1 inside
      exact here.imp_left .inl
    · exact (ihb k legal.2 gotos.2 inside).imp_left .inr
  | ifstmt lab c a ih =>
    intro k legal gotos target
    rw [Statement.nodes_ifstmt, targets_append, targets_append, List.mem_append,
      List.mem_append] at target
    rw [Statement.nodes_ifstmt]
    simp only [labels_append, List.mem_append]
    rcases target with test | inside | never
    · rcases targets_listnodes c 0 lab l test with ⟨-, never⟩ | ⟨rfl, -⟩ | own
      · exact absurd rfl never
      · exact .inl (.inr (.inr (List.mem_singleton_self _)))
      · exact .inl (.inl own)
    · exact (ih k legal.2.2 gotos inside).imp_left fun mem => .inr (.inl mem)
    · exact absurd never List.not_mem_nil
  | ifelse lab c a b iha ihb => exact targeted_ifelse iha ihb
  | whilestmt lab c a ih =>
    intro k legal gotos target
    rw [Statement.nodes_whilestmt, targets_cons] at target
    rw [Statement.nodes_whilestmt, labels_cons]
    change l ∈ labels (Statement.loopNodes front exit lab none (some c) false a k.swp) ∨ _
    rcases List.mem_append.mp target with first | later
    · exact .inl (mem_labels_loopNodes (.inl (List.mem_singleton.mp first)))
    · exact targets_loop legal.2.1 (ih (.loop lab none (some c) a k) legal.2.2.2 gotos) later
  | dostmt lab c a ih =>
    intro k legal gotos target
    rw [Statement.nodes_dostmt] at target ⊢
    exact targets_loop legal.2.1 (ih (.loop lab none (some c) a k) legal.2.2.2 gotos) target
  | forstmt lab e1 e2 e3 a ih => exact targeted_forstmt ih
  | swstmt lab save sym label a ih => exact targeted_swstmt ih

theorem targets_nodes (a : Statement X) (k : Kont X)
    (legal : a.Legal front lang k.loopLab k.swp) (gotos : ∀ l ∈ a.gotos, l ∈ users) :
    ∀ l ∈ targets (a.nodes front exit k.loopLab k.swp),
      l ∈ labels (a.nodes front exit k.loopLab k.swp) ∨ Outside exit users k l :=
  fun _ target => targeted a k legal gotos target

end

/-! The calls are formed as the code list needs them. -/

section
variable {P : Nat → Prop} {users : List Nat}

theorem before_wellFormed (cs : List (Call (Instr X))) (rest : Calls (Instr X)) (waiting : Bool)
    (tabled : ∀ l ∈ nodesTables (nodes cs), P l)
    (formed : rest.WellFormed P (pendings cs waiting)) :
    (before cs rest).WellFormed P waiting := by
  induction cs generalizing waiting with
  | nil => exact formed
  | cons c cs ih =>
    rw [nodes_cons, nodesTables_append, List.forall_mem_append] at tabled
    exact ⟨tabled.1, ih (c.pending waiting) tabled.2 formed⟩

theorem tables_walkExpr (x : Option X) : nodesTables (nodes (walkExpr x)) = [] := by
  rw [nodes_walkExpr, tables_evalNodes]

theorem tables_walkCond (c : Cond X) (tlab flab : Nat) :
    nodesTables (nodes (walkCond c tlab flab)) = [] := by
  rw [nodes_walkCond, tables_listnodes]

theorem tables_loopEnd (lab : Nat) (e3 : Option X) (e2 : Option (Cond X)) (tested : Bool) :
    nodesTables (nodes (loopEnd lab e3 e2 tested)) = [] := by
  rw [nodes_loopEnd]
  change nodesTables (evalNodes e3 ++ testNodes lab e2 tested) = []
  rw [nodesTables_append, tables_evalNodes, tables_testNodes]
  rfl

variable (P users exit) in
/-- What holds of a label that may stay undefined. -/
structure Clear (k : Kont X) (rest : List (Node Nat (Instr X))) (l : Nat) : Prop where
  untabled : ¬ P l
  inside : ¬ Outside exit users k l
  behind : l ∉ targets rest

theorem closed_mem {a : Statement X} (k : Kont X) {l : Nat} (mem : l ∈ a.closed) :
    l ∈ labels (a.nodes front exit k.loopLab k.swp) :=
  List.count_pos_iff.mp (lt_of_lt_of_le (List.count_pos_iff.mpr mem) (closed_le a k l))

theorem formed_loop {lab : Nat} {e3 : Option X} {e2 : Option (Cond X)} {tested : Bool}
    {a : Statement X} {k : Kont X}
    {rest : Calls (Instr X)} (order : ∀ m ∈ k.swp, m < lab)
    (once : (labels (Statement.loopNodes front exit lab e3 e2 tested a k.swp)).Nodup)
    (clear : ∀ l ∈ a.closed ++ [lab + 2], Clear exit P users k rest.nodes l)
    (formed : rest.WellFormed P false)
    (inside : (labels (a.nodes front exit lab k.swp)).Nodup →
      (∀ l ∈ a.closed, Clear exit P users (.loop lab e3 e2 a k)
        (before (loopEnd lab e3 e2 tested) (.close (lab + 2) rest)).nodes l) →
      (before (loopEnd lab e3 e2 tested) (.close (lab + 2) rest)).WellFormed P (a.waits false) →
      (a.calls front exit lab k.swp
        (before (loopEnd lab e3 e2 tested) (.close (lab + 2) rest))).WellFormed P false) :
    (a.calls front exit lab k.swp
      (before (loopEnd lab e3 e2 tested) (.close (lab + 2) rest))).WellFormed P false := by
  have at_most (l : Nat) := List.nodup_iff_count_le_one.mp once l
  simp only [count_loopNodes, List.count_cons, List.count_nil, beq_iff_eq] at at_most
  refine inside ?_ ?_ ?_
  · refine List.nodup_iff_count_le_one.mpr fun l => ?_
    have here := at_most l
    omega
  · intro l mem
    have outer := clear l (List.mem_append_left _ mem)
    have in_a : 0 < (labels (a.nodes front exit lab k.swp)).count l :=
      List.count_pos_iff.mpr (closed_mem (.loop lab e3 e2 a k) mem)
    have here := at_most l
    refine ⟨outer.untabled, fun out => ?_, fun target => ?_⟩
    · rcases outside_loop order out with rfl | rfl | there
      · simp at here
        omega
      · simp at here
        omega
      · exact outer.inside there
    · rw [before_nodes, targets_append, List.mem_append] at target
      rcases target with at_end | later
      · rcases targets_loopEnd at_end with rfl | own
        · simp at here
          omega
        · have := List.count_pos_iff.mpr own
          omega
      · exact outer.behind later
  · have last := clear (lab + 2) (List.mem_append_right _ (List.mem_singleton_self _))
    refine before_wellFormed _ _ _
      (by rw [tables_loopEnd]; exact fun l mem => absurd mem List.not_mem_nil) ?_
    rw [pendings_loopEnd]
    exact ⟨last.untabled, last.behind, formed⟩

/-- In front of calls that are formed, those of a statement are formed as well. -/
def Admitted (front : Front X) (lang : Language X S) (exit : Nat) (P : Nat → Prop)
    (users : List Nat) (a : Statement X) : Prop :=
  ∀ (k : Kont X) (rest : Calls (Instr X)) (waiting : Bool),
    a.Legal front lang k.loopLab k.swp → (∀ l ∈ a.gotos, l ∈ users) →
    (labels (a.nodes front exit k.loopLab k.swp)).Nodup →
    (∀ l ∈ nodesTables (a.nodes front exit k.loopLab k.swp), P l) →
    (∀ l ∈ a.closed, Clear exit P users k rest.nodes l) →
    rest.WellFormed P (a.waits waiting) →
    (a.calls front exit k.loopLab k.swp rest).WellFormed P waiting

theorem none_listed : ∀ l ∈ ([] : List Nat), P l := fun _ mem => absurd mem List.not_mem_nil

theorem Statement.admitted_seq {a b : Statement X}
    (iha : Admitted front lang exit P users a) (ihb : Admitted front lang exit P users b) :
    Admitted front lang exit P users (.seq a b) := by
  intro k rest waiting legal gotos once tabled clear formed
  rw [nodes_seq, labels_append] at once
  rw [nodes_seq, nodesTables_append, List.forall_mem_append] at tabled
  replace clear := List.forall_mem_append.mp clear
  replace gotos := List.forall_mem_append.mp gotos
  obtain ⟨once_a, once_b, apart⟩ := List.nodup_append.mp once
  refine iha (.seq b k) _ waiting legal.1 gotos.1 once_a tabled.1 (fun l mem => ?_)
    (ihb k rest _ legal.2 gotos.2 once_b tabled.2 clear.2 formed)
  have here := clear.1 l mem
  refine ⟨here.untabled, here.inside, fun target => ?_⟩
  rw [calls_nodes, targets_append, List.mem_append] at target
  rcases target with in_b | later
  · rcases targets_nodes b k legal.2 gotos.2 l in_b with own | out
    · exact apart l (closed_mem (.seq b k) mem) l own rfl
    · exact here.inside out
  · exact here.behind later

theorem Statement.admitted_ifstmt {lab : Nat} {c : Cond X} {a : Statement X}
    (ih : Admitted front lang exit P users a) :
    Admitted front lang exit P users (.ifstmt lab c a) := by
  intro k rest waiting legal gotos once tabled clear formed
  rw [nodes_ifstmt, labels_append, labels_append] at once
  rw [nodes_ifstmt, nodesTables_append, nodesTables_append, List.forall_mem_append,
    List.forall_mem_append] at tabled
  have once' := (List.nodup_append.mp (List.nodup_append.mp once).2.1).1
  refine before_wellFormed _ _ _ ?_ ?_
  · rw [nodes_cons, nodesTables_append, tables_walkCond]
    exact none_listed
  · rw [pendings_cons, pendings_walkCond]
    refine ih k _ _ legal.2.2 gotos once' tabled.2.1 (fun l mem => ?_)
      (before_wellFormed _ _ _ none_listed formed)
    have here := clear l mem
    exact ⟨here.untabled, here.inside, by rw [before_nodes]; exact here.behind⟩

theorem Statement.admitted_ifelse {lab : Nat} {c : Cond X} {a b : Statement X}
    (iha : Admitted front lang exit P users a) (ihb : Admitted front lang exit P users b) :
    Admitted front lang exit P users (.ifelse lab c a b) := by
  intro k rest waiting legal gotos once tabled clear formed
  obtain ⟨-, -, legal_a, legal_b⟩ := legal
  rw [nodes_ifelse] at once
  simp only [labels_append, labels_cons, Node.labels, List.nil_append, List.cons_append] at once
  rw [nodes_ifelse, nodesTables_append, nodesTables_append, List.forall_mem_append,
    List.forall_mem_append] at tabled
  obtain ⟨-, tabled_a, tabled_b⟩ := tabled
  change ∀ l ∈ nodesTables (b.nodes front exit k.loopLab k.swp ++ [.label (lab + 1)]),
    P l at tabled_b
  rw [nodesTables_append, List.forall_mem_append] at tabled_b
  replace clear := List.forall_mem_append.mp clear
  rw [List.forall_mem_append] at clear
  obtain ⟨clear_a, clear_b, clear_last⟩ := clear
  replace gotos := List.forall_mem_append.mp gotos
  obtain ⟨once_a, once_rest, apart_a⟩ := List.nodup_append.mp (List.nodup_append.mp once).2.1
  obtain ⟨-, once_rest⟩ := List.nodup_cons.mp once_rest
  obtain ⟨once_b, -, apart_b⟩ := List.nodup_append.mp once_rest
  have last := clear_last (lab + 1) (List.mem_singleton_self _)
  have in_b : (b.calls front exit k.loopLab k.swp (.close (lab + 1) rest)).WellFormed P
    false := by
    refine ihb k _ _ legal_b gotos.2 once_b tabled_b.1 (fun l mem => ?_)
      ⟨last.untabled, last.behind, formed⟩
    have here := clear_b l mem
    exact ⟨here.untabled, here.inside, here.behind⟩
  refine before_wellFormed _ _ _ ?_ ?_
  · rw [nodes_cons, nodesTables_append, tables_walkCond]
    exact none_listed
  · rw [pendings_cons, pendings_walkCond]
    refine iha k _ _ legal_a gotos.1 once_a tabled_a (fun l mem => ?_)
      (before_wellFormed _ _ _ none_listed in_b)
    have here := clear_a l mem
    have place : l ∈ labels (a.nodes front exit k.loopLab k.swp) := closed_mem k mem
    refine ⟨here.untabled, here.inside, fun target => ?_⟩
    rw [before_nodes, calls_nodes, targets_append, targets_append, List.mem_append,
      List.mem_append] at target
    rcases target with behind | inside | later
    · rw [List.mem_singleton.mp behind] at place
      exact apart_a _ place (lab + 1)
        (List.mem_cons_of_mem _ (List.mem_append_right _ (List.mem_cons_self ..))) rfl
    · rcases targets_nodes b k legal_b gotos.2 l inside with own | out
      · exact apart_a l place l (List.mem_cons_of_mem _ (List.mem_append_left _ own)) rfl
      · exact here.inside out
    · exact here.behind later

theorem Statement.admitted_forstmt {lab : Nat} {e1 e3 : Option X} {e2 : Option (Cond X)}
    {a : Statement X}
    (ih : Admitted front lang exit P users a) :
    Admitted front lang exit P users (.forstmt lab e1 e2 e3 a) := by
  intro k rest waiting legal gotos once tabled clear formed
  rw [nodes_forstmt, labels_append, labels_append] at once
  rw [nodes_forstmt, nodesTables_append, nodesTables_append, List.forall_mem_append,
    List.forall_mem_append, tables_loopNodes]
    at tabled
  have once' := (List.nodup_append.mp (List.nodup_append.mp once).2.1).2.1
  refine before_wellFormed _ _ _ ?_ ?_
  · rw [nodes_append, List.cons_append, nodes_cons, nodes_append, nodesTables_append,
      nodesTables_append, nodesTables_append,
      tables_walkExpr]
    cases (e2.isSome && !foldcond front e1 e2) <;> exact none_listed
  · rw [pendings_append]
    exact formed_loop legal.2.1 once' clear formed fun once' clear' formed' =>
      ih (.loop lab e3 e2 a k) _ _ legal.2.2.2 gotos once' tabled.2.2 clear' formed'

theorem Statement.admitted_swstmt {lab sym label : Nat} {save : Option X} {a : Statement X}
    (ih : Admitted front lang exit P users a) :
    Admitted front lang exit P users (.swstmt lab save sym label a) := by
  intro k rest waiting legal gotos once tabled clear formed
  obtain ⟨order, -, flushed, -, legal_a⟩ := legal
  have once_whole := once
  rw [nodes_swstmt] at once
  have at_most (l : Nat) := List.nodup_iff_count_le_one.mp once l
  simp only [labels_append, labels_evalNodes, List.nil_append, List.count_append] at at_most
  rw [nodes_swstmt, nodesTables_append, nodesTables_append, nodesTables_append,
    List.forall_mem_append, List.forall_mem_append,
    List.forall_mem_append] at tabled
  obtain ⟨-, tabled_dispatch, tabled_a, -⟩ := tabled
  have last := clear (lab + 1) (List.mem_append_right _ (List.mem_singleton_self _))
  have last_label : 0 < (labels [(.label (lab + 1) : Node Nat (Instr X))]).count (lab + 1) :=
    List.count_pos_iff.mpr (List.mem_singleton_self _)
  have in_a {l : Nat} (mem : l ∈ a.closed) :
    0 < (labels (a.nodes front exit k.loopLab (some lab))).count l :=
    List.count_pos_iff.mpr (closed_mem (.switch lab k) mem)
  have entry {l : Nat} (there : ∃ e ∈ entries a (.switch lab k), e.1.lab = l) :
      a.closed.count l < (labels (a.nodes front exit k.loopLab (some lab))).count l :=
        closed_lt there
  -- The default label is one of the body, or it is defined behind it.
  have default_label : a.closed.count lab <
    (labels (a.nodes front exit k.loopLab (some lab))).count lab +
      (labels (if a.hasDefault then ([] : List (Node Nat (Instr X)))
        else [.label lab])).count lab := by
    cases there : a.hasDefault with
    | true => exact Nat.lt_add_right _ (entry (count_default a _ there))
    | false =>
      have le : a.closed.count lab ≤ (labels
          (a.nodes front exit k.loopLab (some lab))).count lab := closed_le a (.switch lab k) lab
      have one : (labels [(.label lab : Node Nat (Instr X))]).count lab = 1 :=
        List.count_singleton_self ..
      rw [if_neg Bool.false_ne_true, one]
      omega
  refine before_wellFormed _ _ _ ?_ ⟨?_, ?_, ⟨_, _, rfl, rfl⟩, tabled_dispatch, ?_, ?_, formed⟩
  · rw [nodes_append, nodes_cons, nodesTables_append, nodesTables_append, tables_walkExpr]
    exact none_listed
  · rw [pendings_append]
    rfl
  · rw [calls_pending, before_pending]
    cases there : a.hasDefault with
    | true => exact flushed there
    | false => rfl
  · rw [calls_closed, before_closed]
    intro l mem
    refine ⟨fun target => ?_, (clear l mem).behind⟩
    have here := at_most l
    rcases List.mem_append.mp mem with inside | at_end
    · have place := in_a inside
      rcases (jumpsTo_dispatch (X := X) _ _ label).1 l target with own | rfl | case
      · have := List.count_pos_iff.mpr own
        omega
      · have := List.count_pos_iff.mpr inside
        omega
      · have := entry (mem_caseLabs _ case)
        have := List.count_pos_iff.mpr inside
        omega
    · cases List.mem_singleton.mp at_end
      rcases (jumpsTo_dispatch (X := X) _ _ label).1 _ target with own | never | case
      · have := List.count_pos_iff.mpr own
        omega
      · omega
      · have := entry (mem_caseLabs _ case)
        omega
  · refine ih (.switch lab k) _ false legal_a gotos ?_ tabled_a (fun l mem => ?_) ?_
    · refine List.nodup_iff_count_le_one.mpr fun l => ?_
      have here := at_most l
      change (labels (a.nodes front exit k.loopLab (some lab))).count l ≤ 1
      omega
    · have outer := clear l (List.mem_append_left _ mem)
      have place := in_a mem
      have here := at_most l
      refine ⟨outer.untabled, ?_, ?_⟩
      · rintro (rfl | user | next | ⟨-, leaves⟩)
        · exact outer.inside (.inl rfl)
        · exact outer.inside (.inr (.inl user))
        · exact outer.inside (.inr (.inr (.inl next)))
        · have leaves' : l = lab + 1 := leaves.trans (if_pos order)
          subst leaves'
          omega
      · cases a.hasDefault <;> exact List.not_mem_nil
    · cases a.hasDefault <;> exact before_wellFormed _ _ _ none_listed
        ⟨last.untabled, List.not_mem_nil, trivial⟩

theorem Statement.admitted (a : Statement X) : Admitted front lang exit P users a := by
  induction a with
  | nil =>
    intro k rest waiting legal gotos once tabled clear formed
    exact formed
  | expr x w =>
    intro k rest waiting legal gotos once tabled clear formed
    exact before_wellFormed _ _ _ (by cases w <;> exact none_listed) (by cases w <;> exact formed)
  | empty | brk | cont | goto =>
    intro k rest waiting legal gotos once tabled clear formed
    exact before_wellFormed _ _ _ none_listed formed
  | ret x =>
    intro k rest waiting legal gotos once tabled clear formed
    refine before_wellFormed _ _ _ ?_ ?_
    · rw [nodes_append, nodesTables_append, nodes_cons, nodesTables_append, tables_walkExpr]
      exact none_listed
    · rw [pendings_append]
      exact formed
  | compound a ih =>
    intro k rest waiting legal gotos once tabled clear formed
    rw [nodes_compound] at once tabled
    refine before_wellFormed _ _ _ none_listed
      (ih k _ _ legal gotos once tabled (fun l mem => ?_) ?_)
    · have here := clear l mem
      exact ⟨here.untabled, here.inside, by rw [before_nodes]; exact here.behind⟩
    · exact before_wellFormed _ _ _ none_listed formed
  | caseLab lab vals a ih | deflt a ih =>
    intro k rest waiting legal gotos once tabled clear formed
    have once' := (List.nodup_cons.mp once).2
    exact before_wellFormed _ _ _ none_listed (ih k rest _ legal.2 gotos once' tabled clear formed)
  | stmtlabel lab a ih =>
    intro k rest waiting legal gotos once tabled clear formed
    have once' := (List.nodup_cons.mp once).2
    exact before_wellFormed _ _ _ none_listed (ih k rest _ legal gotos once' tabled clear formed)
  | seq a b iha ihb => exact admitted_seq iha ihb
  | ifstmt lab c a ih => exact admitted_ifstmt ih
  | ifelse lab c a b iha ihb => exact admitted_ifelse iha ihb
  | whilestmt lab c a ih =>
    intro k rest waiting legal gotos once tabled clear formed
    rw [nodes_whilestmt, labels_cons] at once
    have tabled_a : ∀ l ∈ nodesTables (a.nodes front exit lab k.swp), P l := by
      rw [nodes_whilestmt] at tabled
      change ∀ l ∈ nodesTables (loopNodes front exit lab none (some c) false a k.swp), P l at tabled
      rwa [tables_loopNodes] at tabled
    refine before_wellFormed _ _ _ none_listed ?_
    exact formed_loop legal.2.1 once clear formed fun once' clear' formed' =>
      ih (.loop lab none (some c) a k) _ _ legal.2.2.2 gotos once' tabled_a clear' formed'
  | dostmt lab c a ih =>
    intro k rest waiting legal gotos once tabled clear formed
    rw [nodes_dostmt] at once tabled
    rw [tables_loopNodes] at tabled
    refine before_wellFormed _ _ _ none_listed ?_
    exact formed_loop legal.2.1 once clear formed fun once' clear' formed' =>
      ih (.loop lab none (some c) a k) _ _ legal.2.2.2 gotos once' tabled clear' formed'
  | forstmt lab e1 e2 e3 a ih => exact admitted_forstmt ih
  | swstmt lab save sym label a ih => exact admitted_swstmt ih

/-- What is generated for a function, without the jumps and labels that the code list takes out,
does what the body of the function says. -/
theorem text_ends (sees : front.Sees lang) (legal : body.Legal front lang 0 none)
    (defined : ∀ l ∈ body.gotos, ∃ e ∈ entries body .stop, e.1.isLabel l = true)
    (once : (labels (funcdefn front exit body).nodes).Nodup) (s t : S) :
    Runs (exec lang) ((funcdefn front exit body).emit .initial).text
      ((funcdefn front exit body).emit .initial).text s t ↔
      Ends lang body (.run body .stop) s t := by
  rw [← nodes_runs sees legal defined once]
  have gotos : ∀ l ∈ body.gotos, l ∈ (entries body .stop).map fun e => e.1.lab := by
    intro l mem
    obtain ⟨e, there, is⟩ := defined l mem
    exact List.mem_map.mpr ⟨e, there, Entry.lab_of_isLabel is⟩
  have at_most (l : Nat) := List.nodup_iff_count_le_one.mp once l
  simp only [funcdefn_nodes, labels_append, List.count_append] at at_most
  have once' : (labels ((Statement.compound body).nodes front exit 0 none)).Nodup := by
    rw [Statement.nodes_compound]
    refine List.nodup_iff_count_le_one.mpr fun l => ?_
    have here := at_most l
    omega
  refine text_runs _ (fun l => l ∈ nodesTables (body.nodes front exit 0 none)) _ ?_ once ?_ s t
  · refine Statement.admitted (.compound body) .stop _ false legal gotos once'
      (by rw [Statement.nodes_compound]; exact fun l mem => mem) (fun l mem => ?_) ?_
    · have here := at_most l
      have closed : 0 < body.closed.count l := List.count_pos_iff.mpr mem
      have le : body.closed.count l ≤ (labels (body.nodes front exit 0 none)).count l :=
        closed_le body .stop l
      refine ⟨fun listed => ?_, ?_, List.not_mem_nil⟩
      · have lt : body.closed.count l < (labels (body.nodes front exit 0 none)).count l :=
          tables_closed body .stop l listed
        omega
      · have apart : body.closed.count l + ((entries body .stop).map fun e => e.1.lab).count l ≤
          (labels (body.nodes front exit 0 none)).count l := closed_entries body .stop l
        rintro (rfl | user | ⟨never, -⟩ | ⟨never, -⟩)
        · have last : (labels [(.label l : Node Nat (Instr X))]).count l = 1 :=
            List.count_singleton_self ..
          omega
        · have := List.count_pos_iff.mpr user
          omega
        · exact lt_irrefl 0 never
        · exact never.elim (lt_irrefl 0) fun none => none rfl
    · exact before_wellFormed _ _ _ (fun l mem => absurd mem List.not_mem_nil) trivial
  · rw [funcdefn, Statement.calls_pending, before_pending]
    rfl

end

/-- Nothing is seen of expressions. -/
def plain : Front (Int → Int × Int) where
  assigned _ := none
  isVariable _ := none
  constant _ := none
  isUnsigned _ := false
  dense _ _ := true

/-- `while (v < 2) v++; switch (v) { case 2: v = 7; break; default: v = 9; }` -/
def counting : Statement (Int → Int × Int) :=
  .seq (.whilestmt 2 (.rel .LT (fun s => (s, s)) (fun s => (2, s)))
    (.expr (fun s => (s, s + 1)) false))
    (.swstmt 5 none 0 8 (.compound (.seq (.caseLab 7 [2] (.expr (fun _ => (7, 7)) false))
      (.seq .brk (.deflt (.expr (fun _ => (9, 9)) false))))))

theorem labels_counting : labels (funcdefn plain 1 counting).nodes = [2, 3, 4, 7, 5, 6, 1] := by
  have dispatched : nodes (X := Int → Int × Int)
    (dispatch plain.dense (plain.isUnsigned 0) 0 5 [(2, 7)] 8) =
      [.act (.cmp .EQ 0 2) [7], .jump 5, .jump 5] := by
    unfold dispatch swgen
    rw [if_neg (List.cons_ne_nil _ _), swcode]
    rfl
  rw [funcdefn_nodes, counting, Statement.nodes_seq, Statement.nodes_swstmt]
  change labels (_ ++ (_ ++ (nodes (X := Int → Int × Int)
    (dispatch plain.dense (plain.isUnsigned 0) 0 5 [(2, 7)] 8) ++ _)) ++ _) = _
  rw [dispatched]
  rfl

theorem text_ends_counting :
    Runs (exec numbers) ((funcdefn plain 1 counting).emit .initial).text
      ((funcdefn plain 1 counting).emit .initial).text 0 7 := by
  refine (text_ends ⟨nofun, nofun, nofun⟩ ?_
    (fun l mem => absurd mem List.not_mem_nil) ?_ 0 7).mpr ?_
  · have positive : (Cond.rel .LT (fun s => (s, s)) (fun s => (2, s)) : Cond
      (Int → Int × Int)).Positive :=
      fun l mem => absurd mem List.not_mem_nil
    refine ⟨⟨by decide, nofun, positive,
      trivial⟩, by decide, by decide, fun _ => rfl, nofun, ⟨?_, trivial⟩, ?_, ?_, trivial⟩
    · exact Option.some_ne_none 5
    · exact .inr (Option.some_ne_none 5)
    · exact Option.some_ne_none 5
  · rw [labels_counting]
    decide
  · repeat refine .step rfl ?_
    exact .stop 7

end LC3Tools.Stmt
