import LC3Tools.Lcc.StatementNodes

/-! The nodes of a function do what its statements do. -/
namespace LC3Tools.Stmt
open Labels CodeList

variable {X S : Type} {front : Front X} {lang : Language X S} {exit : Nat} {K : Nat → Meaning S}
  {fall : Meaning S}
  {body : Statement X}

theorem test_of_foldcond (sees : front.Sees lang) {e1 : Option X} {e2 : Option (Cond X)}
    (fold : foldcond front e1 e2 = true)
    (s : S) : test lang e2 (effect lang e1 s) = (true, effect lang e1 s) := by
  unfold foldcond at fold
  split at fold
  · rename_i e1 op l r
    split at fold
    · rename_i v c v' c' assigned is_variable constant
      obtain ⟨rfl, holds⟩ := of_decide_eq_true fold
      have left := sees.isVariable is_variable (lang.value e1 s).2
      have right := sees.constant constant (lang.value e1 s).2
      simp only [test, effect, Option.elim_some, Cond.value, left, right, sees.assigned assigned s,
        holds, decide_true]
    · cases fold
  · cases fold

theorem testing_of_not_isTested (sees : front.Sees lang) {e1 : Option X} {e2 : Option (Cond X)}
    (untested : Statement.isTested front e1 e2 = false) (again : Meaning S) (s : S) :
    testing lang e2 again fall (effect lang e1 s) = again (effect lang e1 s) := by
  unfold testing
  cases e2 with
  | none => rfl
  | some c =>
    have fold : foldcond front e1 (some c) = true := by simpa [Statement.isTested] using untested
    rw [test_of_foldcond sees fold]
    rfl

theorem den_loopEnd {lab : Nat} {e3 : Option X} {e2 : Option (Cond X)} {tested : Bool}
    (asked : 0 < lab)
    (positive : ∀ c ∈ e2, c.Positive)
      (solves : ∀ c ∈ e2, Solves (exec lang) K fall (nodes (listnodes lab 0 c))) :
    den (exec lang) K fall (nodes (loopEnd lab e3 e2 tested)) = fun s => testing lang e2
      (K lab) fall (effect lang e3 s) := by
  funext s
  rw [nodes_loopEnd, den, den_evalNodes, den_testNodes asked positive solves]

theorem solves_loopNodes {lab : Nat} {e3 : Option X} {e2 : Option (Cond X)} {tested : Bool}
    {a : Statement X} {swp : Option Nat}
    (asked : 0 < lab) (positive : ∀ c ∈ e2, c.Positive) :
    Solves (exec lang) K fall (Statement.loopNodes front exit lab e3 e2 tested a swp) ↔
      K lab = den (exec lang) K (K (lab + 1)) (a.nodes front exit lab swp) ∧
      Solves (exec lang) K (K (lab + 1)) (a.nodes front exit lab swp) ∧
      (∀ c ∈ e2, Solves (exec lang) K fall (nodes (listnodes lab 0 c))) ∧
      K (lab + 1) = (fun s => testing lang e2 (K lab) fall (effect lang e3 s)) ∧
      (tested = true → e2.isSome = true → K (lab + 3) = testing lang e2 (K lab) fall) ∧
        K (lab + 2) = fall := by
  have at_end : den (exec lang) K fall (nodes (loopEnd lab e3 e2 tested) ++ [.label (lab + 2)]) =
      den (exec lang) K fall (nodes (loopEnd lab e3 e2 tested)) := by
    rw [den_append]
    rfl
  have in_end : Solves (exec lang) K fall (nodes (loopEnd lab e3 e2 tested) ++ [.label (lab + 2)]) ↔
      (K (lab + 1) = den (exec lang) K fall (nodes (loopEnd lab e3 e2 tested)) ∧
        Solves (exec lang) K fall (testNodes lab e2 tested)) ∧ K (lab + 2) = fall := by
    rw [solves_append, nodes_loopEnd]
    simp only [Solves, den, solves_append, solves_evalNodes, true_and, and_true]
  change K lab = den (exec lang) K fall (a.nodes front exit lab swp ++ _) ∧
    Solves (exec lang) K fall (a.nodes front exit lab swp ++ _) ↔ _
  rw [den_append, solves_append, at_end, in_end, solves_testNodes asked positive]
  constructor
  · rintro ⟨here, in_a, ⟨next, conds, tests⟩, last⟩
    rw [← next] at here in_a
    exact ⟨here, in_a, conds, next.trans (den_loopEnd asked positive conds), tests, last⟩
  · rintro ⟨here, in_a, conds, next, tests, last⟩
    have meant : den (exec lang) K fall (nodes (loopEnd lab e3 e2 tested)) = K (lab + 1) :=
      (den_loopEnd asked positive conds).trans next.symm
    rw [meant]
    exact ⟨here, in_a, ⟨rfl, conds, tests⟩, last⟩

/-- What the labels around a statement mean, if a continuation means this. -/
def Around (K : Nat → Meaning S) (V : Kont X → Meaning S) (exit : Nat) : Kont X → Prop
  | .stop => K exit = V .stop
  | .seq _ k => Around K V exit k
  | .loop lab e3 e2 a k =>
    (∀ m ∈ k.swp, m < lab) ∧ K (lab + 1) = V (.loop lab e3 e2 a k) ∧ K (lab + 2) = V k ∧
      Around K V exit k
  | .switch lab k => k.loopLab < lab ∧ K (lab + 1) = V k ∧ Around K V exit k

namespace Around
variable {V : Kont X → Meaning S} {k : Kont X}

theorem exits (around : Around K V exit k) : K exit = V .stop := by
  induction k with
  | stop => exact around
  | seq b k ih => exact ih around
  | loop lab e3 e2 a k ih => exact ih around.2.2.2
  | switch lab k ih => exact ih around.2.2

theorem breaks (around : Around K V exit k) (legal : 0 < k.loopLab ∨ k.swp ≠ none) :
    ∃ k', k.breakTo = some k' ∧ K (breakLab k.loopLab k.swp) = V k' := by
  induction k with
  | stop => exact (legal.elim (lt_irrefl 0) fun never => never rfl).elim
  | seq b k ih => exact ih around legal
  | loop lab e3 e2 a k ih =>
    refine ⟨k, rfl, ?_⟩
    obtain ⟨inner, -, leaves, -⟩ := around
    rw [← leaves]
    change K (breakLab lab k.swp) = _
    cases outer : k.swp with
    | none => rfl
    | some m =>
      have lower := inner m outer
      change K (if lab < m then m + 1 else lab + 2) = _
      rw [if_neg (by omega)]
  | switch lab k ih =>
    refine ⟨k, rfl, ?_⟩
    obtain ⟨inner, leaves, -⟩ := around
    rw [← leaves]
    change K (if k.loopLab < lab then lab + 1 else k.loopLab + 2) = _
    rw [if_pos inner]

theorem continues (around : Around K V exit k) (legal : 0 < k.loopLab) :
    ∃ k', k.continueTo = some k' ∧ K (k.loopLab + 1) = V k' := by
  induction k with
  | stop => exact (lt_irrefl 0 legal).elim
  | seq b k ih => exact ih around legal
  | loop lab e3 e2 a k ih => exact ⟨_, rfl, around.2.1⟩
  | switch lab k ih => exact ih around.2.2 legal

end Around

/-! What the source does, the nodes do: a run keeps to places of the nodes. -/

section
variable (front lang exit K)

/-- What the nodes do from a continuation. -/
def kmean : Kont X → Meaning S
  | .stop => Eq
  | .seq b k => den (exec lang) K (kmean k) (b.nodes front exit k.loopLab k.swp)
  | .loop lab _ _ _ _ => K (lab + 1)
  | .switch _ k => kmean k

def placeMean : Place X → Meaning S
  | .run a k => den (exec lang) K (kmean front lang exit K k) (a.nodes front exit k.loopLab k.swp)
  | .resume k => kmean front lang exit K k

/-- The equations of a statement in front of a continuation. -/
def Fits (a : Statement X) (k : Kont X) : Prop :=
  Solves (exec lang) K (kmean front lang exit K k) (a.nodes front exit k.loopLab k.swp) ∧
    a.Legal front lang k.loopLab k.swp

def Placed : Kont X → Prop
  | .stop => K exit = Eq
  | .seq b k => Fits front lang exit K b k ∧ Placed k
  | .loop lab e3 e2 a k =>
    Fits front lang exit K a (.loop lab e3 e2 a k) ∧
      K lab = placeMean front lang exit K (.run a (.loop lab e3 e2 a k)) ∧
    (K (lab + 1) = fun s => testing lang e2 (K lab) (kmean front lang exit K k)
      (effect lang e3 s)) ∧
    K (lab + 2) = kmean front lang exit K k ∧ (∀ m ∈ k.swp, m < lab) ∧ Placed k
  | .switch lab k => K (lab + 1) = kmean front lang exit K k ∧ k.loopLab < lab ∧ Placed k

def PlacedAt : Place X → Prop
  | .run a k => Fits front lang exit K a k ∧ Placed front lang exit K k
  | .resume k => Placed front lang exit K k

end

/-- The parts of a statement with what is left to do behind them. -/
def parts : Statement X → Kont X → List (Statement X × Kont X)
  | .compound a, k | .ifstmt _ _ a, k | .caseLab _ _ a, k | .deflt a, k
    | .stmtlabel _ a, k => [(a, k)]
  | .seq a b, k => [(a, .seq b k), (b, k)]
  | .ifelse _ _ a b, k => [(a, k), (b, k)]
  | .whilestmt lab c a, k | .dostmt lab c a, k => [(a, .loop lab none (some c) a k)]
  | .forstmt lab _ e2 e3 a, k => [(a, .loop lab e3 e2 a k)]
  | .swstmt lab _ _ _ a, k => [(a, .switch lab k)]
  | .expr .., _ | .empty, _ | .nil, _ | .brk, _ | .cont, _ | .ret _, _ | .goto _, _ => []

theorem Placed.around {k : Kont X} (placed : Placed front lang exit K k) :
    Around K (kmean front lang exit K) exit k := by
  induction k with
  | stop => exact placed
  | seq b k ih => exact ih placed.2
  | loop lab e3 e2 a k ih =>
    obtain ⟨-, -, -, leaves, inner, below⟩ := placed
    exact ⟨inner, rfl, leaves, ih below⟩
  | switch lab k ih =>
    obtain ⟨leaves, inner, below⟩ := placed
    exact ⟨inner, leaves, ih below⟩

theorem Placed.breakTo {k k' : Kont X} (placed : Placed front lang exit K k)
    (goes : k.breakTo = some k') :
    Placed front lang exit K k' := by
  induction k with
  | stop => cases goes
  | seq b k ih => exact ih placed.2 goes
  | loop lab e3 e2 a k ih =>
    cases goes
    exact placed.2.2.2.2.2
  | switch lab k ih =>
    cases goes
    exact placed.2.2

theorem Placed.continueTo {k k' : Kont X} (placed : Placed front lang exit K k)
    (goes : k.continueTo = some k') :
    Placed front lang exit K k' := by
  induction k with
  | stop => cases goes
  | seq b k ih => exact ih placed.2 goes
  | loop lab e3 e2 a k ih =>
    cases goes
    exact placed
  | switch lab k ih => exact ih placed.2.2 goes

theorem placed_loop {lab : Nat} {e3 : Option X} {e2 : Option (Cond X)} {tested : Bool}
    {a : Statement X} {k : Kont X}
    (solves : Solves (exec lang) K (kmean front lang exit K k)
      (Statement.loopNodes front exit lab e3 e2 tested a k.swp))
    (asked : 0 < lab) (inner : ∀ m ∈ k.swp, m < lab) (positive : ∀ c ∈ e2, c.Positive)
    (legal : a.Legal front lang lab k.swp)
    (placed : Placed front lang exit K k) : Placed front lang exit K (.loop lab e3 e2 a k) := by
  obtain ⟨here, in_a, -, next, -, last⟩ := (solves_loopNodes asked positive).mp solves
  exact ⟨⟨in_a, legal⟩, here, next, last, inner, placed⟩

theorem placed_parts (a : Statement X) (k : Kont X) (fits : Fits front lang exit K a k)
    (placed : Placed front lang exit K k) :
    ∀ p ∈ parts a k, Fits front lang exit K p.1 p.2 ∧ Placed front lang exit K p.2 := by
  obtain ⟨solves, legal⟩ := fits
  cases a with
  | expr | empty | nil | brk | cont | ret | goto => exact fun p mem => absurd mem List.not_mem_nil
  | compound a =>
    rw [Statement.nodes_compound] at solves
    exact List.forall_mem_singleton.mpr ⟨⟨solves, legal⟩, placed⟩
  | caseLab lab vals a | deflt a =>
    exact List.forall_mem_singleton.mpr ⟨⟨solves.2, legal.2⟩, placed⟩
  | stmtlabel lab a => exact List.forall_mem_singleton.mpr ⟨⟨solves.2, legal⟩, placed⟩
  | seq a b =>
    rw [Statement.nodes_seq, solves_append] at solves
    have at_b : Fits front lang exit K b k := ⟨solves.2, legal.2⟩
    exact List.forall_mem_cons.mpr
      ⟨⟨⟨solves.1, legal.1⟩, at_b, placed⟩, List.forall_mem_singleton.mpr ⟨at_b, placed⟩⟩
  | ifstmt lab c a =>
    rw [Statement.nodes_ifstmt, solves_append, solves_append] at solves
    exact List.forall_mem_singleton.mpr ⟨⟨solves.2.1, legal.2.2⟩, placed⟩
  | ifelse lab c a b =>
    rw [Statement.nodes_ifelse, solves_append, solves_append] at solves
    obtain ⟨-, in_a, -, in_b⟩ := solves
    obtain ⟨in_b, behind⟩ := solves_append.mp in_b
    have fall_a : K (lab + 1) = kmean front lang exit K k := behind.1
    change Solves (exec lang) K (K (lab + 1)) _ at in_a
    rw [fall_a] at in_a
    exact List.forall_mem_cons.mpr
      ⟨⟨⟨in_a, legal.2.2.1⟩, placed⟩, List.forall_mem_singleton.mpr ⟨⟨in_b, legal.2.2.2⟩, placed⟩⟩
  | whilestmt lab c a | dostmt lab c a =>
    obtain ⟨asked, inner, positive, legal_a⟩ := legal
    have in_loop : Solves (exec lang) K (kmean front lang exit K k)
        (Statement.loopNodes front exit lab none (some c) false a k.swp) := by
      first
        | rw [Statement.nodes_whilestmt] at solves
          exact solves
        | rw [Statement.nodes_dostmt] at solves
          exact solves
    have loop := placed_loop in_loop asked inner
      (fun c' is => Option.some.inj is ▸ positive) legal_a placed
    exact List.forall_mem_singleton.mpr ⟨loop.1, loop⟩
  | forstmt lab e1 e2 e3 a =>
    obtain ⟨asked, inner, positive, legal_a⟩ := legal
    rw [Statement.nodes_forstmt, solves_append, solves_append] at solves
    have loop := placed_loop solves.2.2 asked inner positive legal_a placed
    exact List.forall_mem_singleton.mpr ⟨loop.1, loop⟩
  | swstmt lab save sym label a =>
    obtain ⟨inner, -, -, -, legal_a⟩ := legal
    rw [Statement.nodes_swstmt, solves_append, solves_append, solves_append] at solves
    obtain ⟨-, -, in_a, behind⟩ := solves
    rw [solves_append] at behind
    have leaves : K (lab + 1) = kmean front lang exit K k := behind.2.1
    refine List.forall_mem_singleton.mpr ⟨⟨?_, legal_a⟩, leaves, inner, placed⟩
    cases default : a.hasDefault <;> rw [default] at in_a <;> exact in_a

theorem placed_entries (a : Statement X) (k : Kont X) (fits : Fits front lang exit K a k)
    (placed : Placed front lang exit K k) :
    ∀ e ∈ entries a k, K e.1.lab = placeMean front lang exit K e.2 ∧
      PlacedAt front lang exit K e.2 := by
  have parts := placed_parts a k fits placed
  induction a generalizing k with
  | expr | empty | nil | brk | cont | ret | goto => exact fun e mem => absurd mem List.not_mem_nil
  | compound a ih | ifstmt lab c a ih | whilestmt lab c a ih | dostmt lab c a ih
    | forstmt lab e1 e2 e3 a ih =>
    obtain ⟨in_a, at_a⟩ := parts _ (List.mem_cons_self ..)
    exact ih _ in_a at_a (placed_parts _ _ in_a at_a)
  | caseLab lab vals a ih | deflt a ih | stmtlabel lab a ih =>
    obtain ⟨in_a, at_a⟩ := parts _ (List.mem_cons_self ..)
    refine List.forall_mem_cons.mpr ⟨⟨fits.1.1, in_a, at_a⟩, ?_⟩
    exact ih _ in_a at_a (placed_parts _ _ in_a at_a)
  | swstmt lab save sym label a ih =>
    obtain ⟨in_a, at_a⟩ := parts _ (List.mem_cons_self ..)
    intro e mem
    obtain ⟨e', inside, rfl⟩ := List.mem_map.mp mem
    have here := ih _ in_a at_a (placed_parts _ _ in_a at_a) e' inside
    rwa [Entry.lab_hide]
  | seq a b iha ihb | ifelse lab c a b iha ihb =>
    obtain ⟨in_a, at_a⟩ := parts _ (List.mem_cons_self ..)
    obtain ⟨in_b, at_b⟩ := parts _ (List.mem_cons_of_mem _ (List.mem_cons_self ..))
    intro e mem
    rcases List.mem_append.mp mem with inside | inside
    · exact iha _ in_a at_a (placed_parts _ _ in_a at_a) e inside
    · exact ihb _ in_b at_b (placed_parts _ _ in_b at_b) e inside

section
variable {k : Kont X} {p' : Place X} {s s' : S}

theorem step_ifstmt {lab : Nat} {c : Cond X} {a : Statement X}
    (fits : Fits front lang exit K (.ifstmt lab c a) k) (placed : Placed front lang exit K k)
    (does : step lang body (.run (.ifstmt lab c a) k) s = some (p', s')) :
    PlacedAt front lang exit K p' ∧
      placeMean front lang exit K (.run (.ifstmt lab c a) k) s =
        placeMean front lang exit K p' s' := by
  have inside := placed_parts _ k fits placed
  obtain ⟨solves, asked, positive, -⟩ := fits
  rw [Statement.nodes_ifstmt] at solves
  obtain ⟨in_c, in_rest⟩ := solves_append.mp solves
  have behind : K lab = kmean front lang exit K k := (solves_append.mp in_rest).2.1
  rw [placeMean, Statement.nodes_ifstmt, den_append, den_unless asked positive in_c,
    den_append, behind]
  cases does
  cases (c.value lang s).1 with
  | true => exact ⟨inside _ (List.mem_cons_self ..), rfl⟩
  | false => exact ⟨placed, rfl⟩

theorem step_ifelse {lab : Nat} {c : Cond X} {a b : Statement X}
    (fits : Fits front lang exit K (.ifelse lab c a b) k) (placed : Placed front lang exit K k)
    (does : step lang body (.run (.ifelse lab c a b) k) s = some (p', s')) :
    PlacedAt front lang exit K p' ∧
      placeMean front lang exit K (.run (.ifelse lab c a b) k) s =
        placeMean front lang exit K p' s' := by
  have inside := placed_parts _ k fits placed
  obtain ⟨solves, asked, positive, -⟩ := fits
  rw [Statement.nodes_ifelse] at solves
  obtain ⟨in_c, in_rest⟩ := solves_append.mp solves
  obtain ⟨other, in_b⟩ := (solves_append.mp in_rest).2
  have behind : K (lab + 1) = kmean front lang exit K k := (solves_append.mp in_b).2.1
  rw [placeMean, Statement.nodes_ifelse, den_append, den_unless asked positive in_c, den_append,
    other, den_append]
  cases does
  cases (c.value lang s).1 with
  | true =>
    refine ⟨inside _ (List.mem_cons_self ..), ?_⟩
    change den (exec lang) K (K (lab + 1)) _ _ = _
    rw [behind]
    rfl
  | false => exact ⟨inside _ (List.mem_cons_of_mem _ (List.mem_cons_self ..)), rfl⟩

theorem step_dostmt {lab : Nat} {c : Cond X} {a : Statement X}
    (fits : Fits front lang exit K (.dostmt lab c a) k) (placed : Placed front lang exit K k)
    (does : step lang body (.run (.dostmt lab c a) k) s = some (p', s')) :
    PlacedAt front lang exit K p' ∧
      placeMean front lang exit K (.run (.dostmt lab c a) k) s =
        placeMean front lang exit K p' s' := by
  have inside := placed_parts _ k fits placed
  have loop := inside _ (List.mem_cons_self ..)
  cases does
  refine ⟨loop, ?_⟩
  obtain ⟨solves, asked, -, positive, -⟩ := fits
  rw [Statement.nodes_dostmt] at solves
  have here := solves.1
  rw [placeMean, Statement.nodes_dostmt]
  exact congrFun (here.symm.trans loop.2.2.1) s

theorem step_forstmt {lab : Nat} {e1 e3 : Option X} {e2 : Option (Cond X)} {a : Statement X}
    (sees : front.Sees lang) (fits : Fits front lang exit K (.forstmt lab e1 e2 e3 a) k)
    (placed : Placed front lang exit K k)
    (does : step lang body (.run (.forstmt lab e1 e2 e3 a) k) s = some (p', s')) :
    PlacedAt front lang exit K p' ∧
      placeMean front lang exit K (.run (.forstmt lab e1 e2 e3 a) k) s =
        placeMean front lang exit K p' s' := by
  have inside := placed_parts _ k fits placed
  have loop := inside _ (List.mem_cons_self ..)
  obtain ⟨solves, asked, -, positive, -⟩ := fits
  rw [Statement.nodes_forstmt, solves_append, solves_append] at solves
  obtain ⟨-, -, in_loop⟩ := solves
  obtain ⟨-, -, -, -, tests, -⟩ := (solves_loopNodes asked positive).mp in_loop
  have meant : placeMean front lang exit K (.run (.forstmt lab e1 e2 e3 a) k) s =
      testing lang e2 (K lab) (kmean front lang exit K k) (effect lang e1 s) := by
    rw [placeMean, Statement.nodes_forstmt, den_evalNodes]
    cases tested : Statement.isTested front e1 e2 with
    | true =>
      have some_test : e2.isSome = true := (Bool.and_eq_true_iff.mp tested).1
      exact congrFun (tests tested some_test) _
    | false =>
      rw [tested] at in_loop
      exact (congrFun in_loop.1.symm _).trans (testing_of_not_isTested sees tested _ s).symm
  rw [meant, testing]
  cases does
  cases (test lang e2 (effect lang e1 s)).1 with
  | true => exact ⟨loop, congrFun loop.2.2.1 _⟩
  | false => exact ⟨placed, rfl⟩

theorem step_swstmt {lab sym label : Nat} {save : Option X} {a : Statement X}
    (fits : Fits front lang exit K (.swstmt lab save sym label a) k)
    (placed : Placed front lang exit K k)
    (does : step lang body (.run (.swstmt lab save sym label a) k) s = some (p', s')) :
    PlacedAt front lang exit K p' ∧
      placeMean front lang exit K (.run (.swstmt lab save sym label a) k) s =
        placeMean front lang exit K p' s' := by
  have inside := placed_parts _ k fits placed
  obtain ⟨in_a, at_a⟩ := inside _ (List.mem_cons_self ..)
  have entered := placed_entries a _ in_a at_a
  obtain ⟨solves, -, once, -, positive, -⟩ := fits
  rw [Statement.nodes_swstmt, solves_append, solves_append, solves_append] at solves
  obtain ⟨-, in_dispatch, -, behind⟩ := solves
  have missing (none_there : a.hasDefault = false) : K lab = kmean front lang exit K k := by
    rw [none_there] at behind
    exact behind.1
  have sorted := ascending_of_descending (a.cases_descending List.Pairwise.nil) once
  cases does
  constructor
  · unfold select
    split
    · rename_i e taken
      exact (entered e (List.mem_of_find?_eq_some taken)).2
    · split
      · rename_i e default
        exact (entered e (List.mem_of_find?_eq_some default)).2
      · exact at_a
  · rw [placeMean, Statement.nodes_swstmt, den_evalNodes, den_append,
      den_dispatch _ _ sorted (fun unsigned => positive unsigned _) label in_dispatch,
      select_target (W := placeMean front lang exit K) _ rfl once
        (fun e mem => (entered e mem).1) missing]

theorem step_goto {lab : Nat}
    (function : Fits front lang exit K body .stop) (exits : K exit = Eq)
    (does : step lang body (.run (.goto lab) k) s = some (p', s')) :
    PlacedAt front lang exit K p' ∧
      placeMean front lang exit K (.run (.goto lab) k) s =
        placeMean front lang exit K p' s' := by
  rw [step] at does
  cases found : (entries body .stop).find? fun e => e.1.isLabel lab with
  | none =>
    rw [found] at does
    cases does
  | some e =>
    rw [found] at does
    cases does
    obtain ⟨meant, there⟩ :=
      placed_entries body .stop function exits e (List.mem_of_find?_eq_some found)
    have is := List.find?_some found
    have here : e.1.lab = lab := Entry.lab_of_isLabel is
    exact ⟨there, congrFun (here ▸ meant) s⟩

theorem step_loop {lab : Nat} {e3 : Option X} {e2 : Option (Cond X)} {a : Statement X}
    (placed : Placed front lang exit K (.loop lab e3 e2 a k))
    (does : step lang body (.resume (.loop lab e3 e2 a k)) s = some (p', s')) :
    PlacedAt front lang exit K p' ∧
      placeMean front lang exit K (.resume (.loop lab e3 e2 a k)) s =
        placeMean front lang exit K p' s' := by
  have ⟨in_a, again, next, _, _, below⟩ := placed
  have meant : placeMean front lang exit K (.resume (.loop lab e3 e2 a k)) s =
      testing lang e2 (K lab) (kmean front lang exit K k) (effect lang e3 s) := congrFun next s
  rw [meant, testing]
  cases does
  cases (test lang e2 (effect lang e3 s)).1 with
  | true => exact ⟨⟨in_a, placed⟩, congrFun again _⟩
  | false => exact ⟨below, rfl⟩

end

theorem placed_step (sees : front.Sees lang) (function : Fits front lang exit K body .stop)
    (exits : K exit = Eq)
    {p p' : Place X} {s s' : S} (placed : PlacedAt front lang exit K p)
    (does : step lang body p s = some (p', s')) :
    PlacedAt front lang exit K p' ∧
      placeMean front lang exit K p s = placeMean front lang exit K p' s' := by
  cases p with
  | resume k =>
    cases k with
    | stop => cases does
    | seq b k =>
      cases does
      exact ⟨placed, rfl⟩
    | switch lab k =>
      cases does
      exact ⟨placed.2.2, rfl⟩
    | loop lab e3 e2 a k =>
      exact step_loop placed does
  | run a k =>
    obtain ⟨fits, placed⟩ := placed
    have inside := placed_parts a k fits placed
    cases a with
    | expr x waits =>
      cases does
      refine ⟨placed, ?_⟩
      rw [placeMean, Statement.nodes_expr]
      rfl
    | empty | nil =>
      cases does
      exact ⟨placed, rfl⟩
    | compound a =>
      cases does
      refine ⟨inside _ (List.mem_cons_self ..), ?_⟩
      rw [placeMean, Statement.nodes_compound]
      rfl
    | seq a b =>
      cases does
      refine ⟨inside _ (List.mem_cons_self ..), ?_⟩
      rw [placeMean, Statement.nodes_seq, den_append]
      rfl
    | caseLab | deflt | stmtlabel =>
      cases does
      exact ⟨inside _ (List.mem_cons_self ..), rfl⟩
    | ifstmt lab c a =>
      exact step_ifstmt fits placed does
    | ifelse lab c a b =>
      exact step_ifelse fits placed does
    | whilestmt lab c a =>
      have loop := (inside _ (List.mem_cons_self ..)).2
      cases does
      refine ⟨loop, ?_⟩
      rw [placeMean, Statement.nodes_whilestmt]
      rfl
    | dostmt lab c a =>
      exact step_dostmt fits placed does
    | forstmt lab e1 e2 e3 a =>
      exact step_forstmt sees fits placed does
    | swstmt lab save sym label a =>
      exact step_swstmt fits placed does
    | brk =>
      obtain ⟨k', goes, meant⟩ := placed.around.breaks fits.2
      rw [step, goes] at does
      cases does
      exact ⟨placed.breakTo goes, congrFun meant s⟩
    | cont =>
      obtain ⟨k', goes, meant⟩ := placed.around.continues fits.2
      rw [step, goes] at does
      cases does
      exact ⟨placed.continueTo goes, congrFun meant s⟩
    | ret x =>
      cases does
      refine ⟨exits, ?_⟩
      rw [placeMean, Statement.nodes_ret, den_evalNodes]
      exact congrFun exits _
    | goto lab =>
      exact step_goto function exits does

/-- A run of the source to its end is one of every solution. -/
theorem den_of_ends (sees : front.Sees lang) (function : Fits front lang exit K body .stop)
    (exits : K exit = Eq) {p : Place X}
    {s t : S} (ends : Ends lang body p s t) (placed : PlacedAt front lang exit K p) :
      placeMean front lang exit K p s t := by
  induction ends with
  | stop s => rfl
  | step does later ih =>
    obtain ⟨there, same⟩ := placed_step sees function exits placed does
    rw [same]
    exact ih there

/-! And they do nothing else: what the source does from its places solves the equations. -/

theorem ends_step {p p' : Place X} {s s' : S} (does : step lang body p s = some (p', s')) :
    Ends lang body p s = Ends lang body p' s' := by
  funext t
  refine propext ⟨fun ends => ?_, .step does⟩
  cases ends with
  | stop => cases does
  | step does' later =>
    cases does.symm.trans does'
    exact later

theorem ends_stop : Ends lang body (.resume .stop) = Eq := by
  funext s t
  refine propext ⟨fun ends => ?_, ?_⟩
  · cases ends with
    | stop => rfl
    | step does later => cases does
  · rintro rfl
    exact .stop s

theorem ends_resume_loop (lab : Nat) (e3 : Option X) (e2 : Option (Cond X)) (a : Statement X)
    (k : Kont X) :
    Ends lang body (.resume (.loop lab e3 e2 a k)) = fun s =>
      testing lang e2 (Ends lang body (.run a (.loop lab e3 e2 a k))) (Ends lang body (.resume k))
        (effect lang e3 s) := by
  funext s
  rw [ends_step rfl, testing]
  cases (test lang e2 (effect lang e3 s)).1 <;> rfl

variable (front lang body) in
/-- The labels with a place of the source, and what they mean. -/
def marks : Statement X → Kont X → List (Nat × Meaning S)
  | .compound a, k => marks a k
  | .seq a b, k => marks a (.seq b k) ++ marks b k
  | .ifstmt lab _ a, k => (lab, Ends lang body (.resume k)) :: marks a k
  | .ifelse lab _ a b, k =>
    (lab, Ends lang body (.run b k)) :: (lab + 1, Ends lang body (.resume k)) ::
    (marks a k ++ marks b k)
  | .whilestmt lab c a, k | .dostmt lab c a, k =>
    (lab, Ends lang body (.run a (.loop lab none (some c) a k))) ::
      (lab + 1, Ends lang body (.resume (.loop lab none (some c) a k))) ::
      (lab + 2, Ends lang body (.resume k)) ::
      marks a (.loop lab none (some c) a k)
  | .forstmt lab e1 e2 e3 a, k =>
    (lab, Ends lang body (.run a (.loop lab e3 e2 a k))) ::
    (lab + 1, Ends lang body (.resume (.loop lab e3 e2 a k))) ::
      (lab + 2, Ends lang body (.resume k)) ::
      ((if Statement.isTested front e1 e2 then
        [(lab + 3, testing lang e2 (Ends lang body (.run a (.loop lab e3 e2 a k)))
          (Ends lang body (.resume k)))] else []) ++
      marks a (.loop lab e3 e2 a k))
  | .swstmt lab _ _ _ a, k =>
    (lab + 1, Ends lang body (.resume k)) ::
      ((if a.hasDefault then [] else [(lab, Ends lang body (.resume k))]) ++
        marks a (.switch lab k))
  | .caseLab lab _ a, k | .stmtlabel lab a, k => (lab, Ends lang body (.run a k)) :: marks a k
  | .deflt a, k => (k.swp.getD 0, Ends lang body (.run a k)) :: marks a k
  | .expr .., _ | .empty, _ | .nil, _ | .brk, _ | .cont, _ | .ret _, _ | .goto _, _ => []

namespace Statement

variable (front) in
/-- The labels of conditions and dispatches. -/
def inner : Statement X → List Nat
  | compound a | caseLab _ _ a | deflt a | stmtlabel _ a => a.inner
  | seq a b => a.inner ++ b.inner
  | ifstmt lab c a => labels (Stmt.nodes (listnodes 0 lab c)) ++ a.inner
  | ifelse lab c a b => labels (Stmt.nodes (listnodes 0 lab c)) ++ (a.inner ++ b.inner)
  | whilestmt lab c a | dostmt lab c a => labels (Stmt.nodes (listnodes lab 0 c)) ++ a.inner
  | forstmt lab _ e2 _ a => e2.elim [] (fun c => labels (Stmt.nodes (listnodes lab 0 c))) ++ a.inner
  | swstmt lab _ sym label a =>
    labels (Stmt.nodes (X := X)
      (dispatch front.dense (front.isUnsigned sym) sym lab (a.cases []).reverse label)) ++ a.inner
  | expr .. | empty | nil | brk | cont | ret _ | goto _ => []

def gotos : Statement X → List Nat
  | compound a | caseLab _ _ a | deflt a | stmtlabel _ a | ifstmt _ _ a | whilestmt _ _ a | dostmt _
    _ a | forstmt _ _ _ _ a
  | swstmt _ _ _ _ a => a.gotos
  | seq a b | ifelse _ _ a b => a.gotos ++ b.gotos
  | goto lab => [lab]
  | expr .. | empty | nil | brk | cont | ret _ => []

end Statement

theorem entries_marks (a : Statement X) (k : Kont X) :
    ∀ e ∈ entries a k, (e.1.lab, Ends lang body e.2) ∈ marks front lang body a k := by
  induction a generalizing k with
  | expr | empty | nil | brk | cont | ret | goto => exact fun e mem => absurd mem List.not_mem_nil
  | compound a ih => exact ih k
  | ifstmt lab c a ih => exact fun e mem => List.mem_cons_of_mem _ (ih k e mem)
  | whilestmt lab c a ih | dostmt lab c a ih =>
    exact fun e mem => List.mem_cons_of_mem _
      (List.mem_cons_of_mem _ (List.mem_cons_of_mem _ (ih _ e mem)))
  | forstmt lab e1 e2 e3 a ih =>
    exact fun e mem =>
      List.mem_cons_of_mem _
        (List.mem_cons_of_mem _ (List.mem_cons_of_mem _ (List.mem_append_right _ (ih _ e mem))))
  | caseLab lab vals a ih | deflt a ih | stmtlabel lab a ih =>
    exact List.forall_mem_cons.mpr
      ⟨List.mem_cons_self .., fun e mem => List.mem_cons_of_mem _ (ih k e mem)⟩
  | swstmt lab save sym label a ih =>
    intro e mem
    obtain ⟨e', inside, rfl⟩ := List.mem_map.mp mem
    rw [Entry.lab_hide]
    exact List.mem_cons_of_mem _ (List.mem_append_right _ (ih _ e' inside))
  | seq a b iha ihb =>
    intro e mem
    rcases List.mem_append.mp mem with inside | inside
    · exact List.mem_append_left _ (iha _ e inside)
    · exact List.mem_append_right _ (ihb k e inside)
  | ifelse lab c a b iha ihb =>
    intro e mem
    refine List.mem_cons_of_mem _ (List.mem_cons_of_mem _ ?_)
    rcases List.mem_append.mp mem with inside | inside
    · exact List.mem_append_left _ (iha _ e inside)
    · exact List.mem_append_right _ (ihb k e inside)

theorem labels_evalNodes (x : Option X) : labels (evalNodes x) = [] := by
  cases x <;> rfl

theorem labels_testNodes (lab : Nat) (e2 : Option (Cond X)) (tested : Bool) :
    labels (testNodes lab e2 tested) =
      (if e2.isSome && tested then [lab + 3] else []) ++ e2.elim [] fun c =>
        labels (nodes (listnodes lab 0 c)) := by
  cases e2 with
  | none => rfl
  | some c => cases tested <;> rfl

theorem count_loopNodes (lab : Nat) (e3 : Option X) (e2 : Option (Cond X)) (tested : Bool)
    (a : Statement X) (swp : Option Nat)
    (l : Nat) : (labels (Statement.loopNodes front exit lab e3 e2 tested a swp)).count l =
      [lab, lab + 1, lab + 2].count l + (if e2.isSome && tested then [lab + 3] else []).count l +
      (labels (a.nodes front exit lab swp)).count l +
      (e2.elim [] fun c => labels (nodes (listnodes lab 0 c))).count l := by
  rw [Statement.loopNodes, nodes_loopEnd]
  simp only [labels_cons, labels_append, labels_evalNodes, labels_testNodes, Node.labels,
    List.nil_append, List.cons_append,
    List.count_append, List.count_cons, List.count_nil]
  have none_else : (labels ([] : List (Node Nat (Instr X)))).count l = 0 := rfl
  rw [none_else]
  omega

theorem labels_nodes (a : Statement X) (k : Kont X) (l : Nat) :
    (labels (a.nodes front exit k.loopLab k.swp)).count l =
      ((marks front lang body a k).map fun m => m.1).count l + (a.inner front).count l := by
  have none_else : (labels ([] : List (Node Nat (Instr X)))).count l = 0 := rfl
  induction a generalizing k with
  | expr x w =>
    rw [Statement.nodes_expr]
    rfl
  | empty | nil | brk | cont | goto => rfl
  | ret x =>
    rw [Statement.nodes_ret, labels_append, labels_evalNodes]
    rfl
  | compound a ih =>
    rw [Statement.nodes_compound]
    exact ih k
  | seq a b iha ihb =>
    have in_a : (labels (a.nodes front exit k.loopLab k.swp)).count l = _ := iha (.seq b k)
    rw [Statement.nodes_seq, marks, Statement.inner]
    simp only [labels_append, List.map_append, List.count_append, in_a, ihb]
    omega
  | ifstmt lab c a ih =>
    rw [Statement.nodes_ifstmt, marks, Statement.inner]
    simp only [labels_append, labels_cons, Node.labels, List.map_cons, List.count_append,
      List.count_cons, List.count_nil, ih,
      none_else]
    omega
  | ifelse lab c a b iha ihb =>
    rw [Statement.nodes_ifelse, marks, Statement.inner]
    simp only [labels_append, labels_cons, Node.labels, List.map_cons, List.map_append,
      List.count_append, List.count_cons,
      List.count_nil, iha, ihb, none_else]
    omega
  | whilestmt lab c a ih =>
    have in_a : (labels (a.nodes front exit lab k.swp)).count l = _ :=
      ih (.loop lab none (some c) a k)
    rw [Statement.nodes_whilestmt, labels_cons, List.count_append, count_loopNodes, in_a, marks,
      Statement.inner]
    simp only [Node.labels, Option.elim_some, Bool.and_false, Bool.false_eq_true, if_false,
      List.map_cons, List.count_append,
      List.count_cons, List.count_nil]
    omega
  | dostmt lab c a ih =>
    have in_a : (labels (a.nodes front exit lab k.swp)).count l = _ :=
      ih (.loop lab none (some c) a k)
    rw [Statement.nodes_dostmt, count_loopNodes, in_a, marks, Statement.inner]
    simp only [Option.elim_some, Bool.and_false, Bool.false_eq_true, if_false, List.map_cons,
      List.count_append,
      List.count_cons, List.count_nil]
    omega
  | forstmt lab e1 e2 e3 a ih =>
    have in_a : (labels (a.nodes front exit lab k.swp)).count l = _ := ih (.loop lab e3 e2 a k)
    have front_label : labels (if Statement.isTested front e1 e2 then [Node.jump (lab + 3)]
        else ([] : List (Node Nat (Instr X)))) = [] := by
      cases Statement.isTested front e1 e2 <;> rfl
    have some_test : (e2.isSome && Statement.isTested front e1 e2) =
      Statement.isTested front e1 e2 := by
      rw [Statement.isTested, ← Bool.and_assoc, Bool.and_self]
    rw [Statement.nodes_forstmt, labels_append, labels_append, labels_evalNodes, front_label,
      List.nil_append, List.nil_append,
      count_loopNodes, in_a, some_test, marks, Statement.inner]
    cases Statement.isTested front e1 e2 with
    | true =>
      simp only [if_true, List.map_cons, List.singleton_append, List.count_append, List.count_cons,
        List.count_nil]
      omega
    | false =>
      simp only [Bool.false_eq_true, if_false, List.map_cons, List.nil_append, List.count_append,
        List.count_cons, List.count_nil]
      omega
  | swstmt lab save sym label a ih =>
    have in_a : (labels (a.nodes front exit k.loopLab (some lab))).count l = _ := ih (.switch lab k)
    rw [Statement.nodes_swstmt, marks, Statement.inner]
    cases a.hasDefault with
    | true =>
      simp only [if_true, labels_append, labels_cons, labels_evalNodes, Node.labels, List.map_cons,
        List.nil_append,
        List.count_append, List.count_cons, List.count_nil, in_a, none_else]
      omega
    | false =>
      simp only [Bool.false_eq_true, if_false, labels_append, labels_cons, labels_evalNodes,
        Node.labels, List.map_cons,
        List.nil_append, List.singleton_append, List.count_append, List.count_cons, in_a, none_else]
      omega
  | caseLab lab vals a ih | deflt a ih | stmtlabel lab a ih =>
    rw [marks, Statement.inner, List.map_cons, List.count_cons]
    have in_a := ih k
    first
      | rw [Statement.nodes_caseLab, labels_cons, List.count_append, in_a]
      | rw [Statement.nodes_deflt, labels_cons, List.count_append, in_a]
      | rw [Statement.nodes_stmtlabel, labels_cons, List.count_append, in_a]
    simp only [Node.labels, List.count_cons, List.count_nil]
    omega

theorem solvesAt_evalNodes {A : Nat → Prop} (x : Option X) (code : List (Node Nat (Instr X))) :
    SolvesAt (exec lang) K fall A (evalNodes x ++ code) ↔ SolvesAt (exec lang) K fall A code := by
  cases x <;> rfl

theorem solvesAt_testNodes {A : Nat → Prop} {lab : Nat} {e2 : Option (Cond X)} {tested : Bool}
    (solves : SolvesAt (exec lang) K fall A (testNodes lab e2 tested))
    (all : ∀ l ∈ (e2.elim [] fun c => labels (nodes (listnodes lab 0 c)) : List Nat), A l) :
    ∀ c ∈ e2, Solves (exec lang) K fall (nodes (listnodes lab 0 c)) := by
  intro c is
  cases is
  cases tested with
  | false => exact solves.solves all
  | true => exact solves.2.solves all

theorem meant_loop {A : Nat → Prop} {lab : Nat} {e3 : Option X} {e2 : Option (Cond X)}
    {tested : Bool} {a : Statement X}
    {k : Kont X} (asked : 0 < lab) (positive : ∀ c ∈ e2, c.Positive)
    (again : K lab = Ends lang body (.run a (.loop lab e3 e2 a k)))
    (next : K (lab + 1) = Ends lang body (.resume (.loop lab e3 e2 a k)))
    (leaves : K (lab + 2) = Ends lang body (.resume k))
    (tests : tested = true → e2.isSome = true → K (lab + 3) =
      testing lang e2 (Ends lang body (.run a (.loop lab e3 e2 a k))) (Ends lang body (.resume k)))
    (inner : SolvesAt (exec lang) K (Ends lang body (.resume k)) A
      (Statement.loopNodes front exit lab e3 e2 tested a k.swp))
    (all : ∀ l ∈ (e2.elim [] fun c => labels (nodes (listnodes lab 0 c)) : List Nat), A l)
    (inside : SolvesAt (exec lang) K (Ends lang body (.resume (.loop lab e3 e2 a k))) A
      (a.nodes front exit lab k.swp) →
      den (exec lang) K (Ends lang body (.resume (.loop lab e3 e2 a k)))
        (a.nodes front exit lab k.swp) =
        Ends lang body (.run a (.loop lab e3 e2 a k)) ∧
      Solves (exec lang) K (Ends lang body (.resume (.loop lab e3 e2 a k)))
        (a.nodes front exit lab k.swp)) :
    Solves (exec lang) K (Ends lang body (.resume k))
      (Statement.loopNodes front exit lab e3 e2 tested a k.swp) := by
  obtain ⟨in_a, in_end⟩ := solvesAt_append.mp inner.2
  rw [solvesAt_append, nodes_loopEnd] at in_end
  obtain ⟨⟨-, in_end⟩, -⟩ := in_end
  have conds := solvesAt_testNodes ((solvesAt_evalNodes e3 _).mp in_end) all
  have at_end : den (exec lang) K (Ends lang body (.resume k))
    (nodes (loopEnd lab e3 e2 tested) ++ [.label (lab + 2)]) =
      Ends lang body (.resume (.loop lab e3 e2 a k)) := by
    rw [den_append, ends_resume_loop, ← again]
    exact den_loopEnd asked positive conds
  rw [at_end] at in_a
  obtain ⟨meant, solves⟩ := inside in_a
  refine (solves_loopNodes asked positive).mpr ⟨?_, ?_, conds, ?_, ?_, leaves⟩
  · rw [again, next, meant]
  · rw [next]
    exact solves
  · rw [next, ends_resume_loop, again]
  · rw [again]
    exact tests

/-- Behind whatever is left to do, the nodes of a statement mean what is left to do from it on, as
soon as its marks mean what is left to do behind them. -/
def Meant (front : Front X) (lang : Language X S) (body : Statement X) (exit : Nat)
    (K : Nat → Meaning S) (A : Nat → Prop) (a : Statement X) : Prop :=
  ∀ k : Kont X,
    (∀ l ∈ a.gotos, ∃ e ∈ entries body .stop, e.1.isLabel l = true) →
    a.Legal front lang k.loopLab k.swp →
    Around K (fun k => Ends lang body (.resume k)) exit k →
    (∀ m ∈ marks front lang body a k, K m.1 = m.2) →
    SolvesAt (exec lang) K (Ends lang body (.resume k)) A (a.nodes front exit k.loopLab k.swp) →
    (∀ l ∈ a.inner front, A l) →
    den (exec lang) K (Ends lang body (.resume k)) (a.nodes front exit k.loopLab k.swp) =
      Ends lang body (.run a k) ∧
    Solves (exec lang) K (Ends lang body (.resume k)) (a.nodes front exit k.loopLab k.swp)

section
variable {A : Nat → Prop}

theorem meant_seq {a b : Statement X}
    (iha : Meant front lang body exit K A a) (ihb : Meant front lang body exit K A b) :
    Meant front lang body exit K A (.seq a b) := by
  intro k defined legal around marked inner all
  rw [Statement.nodes_seq] at inner ⊢
  obtain ⟨in_a, in_b⟩ := solvesAt_append.mp inner
  replace marked := List.forall_mem_append.mp marked
  replace defined := List.forall_mem_append.mp defined
  replace all := List.forall_mem_append.mp all
  obtain ⟨meant_b, solves_b⟩ := ihb k defined.2 legal.2 around marked.2 in_b all.2
  have behind : den (exec lang) K (Ends lang body (.resume k))
    (b.nodes front exit k.loopLab k.swp) =
      Ends lang body (.resume (.seq b k)) := meant_b.trans (funext fun s => (ends_step rfl).symm)
  rw [behind] at in_a
  obtain ⟨meant_a, solves_a⟩ := iha (.seq b k) defined.1 legal.1 around marked.1 in_a all.1
  rw [den_append, solves_append, behind]
  exact ⟨meant_a.trans (funext fun s => (ends_step rfl).symm), solves_a, solves_b⟩

theorem meant_ifstmt {lab : Nat} {c : Cond X} {a : Statement X}
    (ih : Meant front lang body exit K A a) :
    Meant front lang body exit K A (.ifstmt lab c a) := by
  intro k defined legal around marked inner all
  obtain ⟨asked, positive, legal_a⟩ := legal
  rw [Statement.nodes_ifstmt] at inner ⊢
  obtain ⟨in_c, in_rest⟩ := solvesAt_append.mp inner
  obtain ⟨in_a, -⟩ := solvesAt_append.mp in_rest
  replace marked := List.forall_mem_cons.mp marked
  replace all := List.forall_mem_append.mp all
  obtain ⟨meant, solves⟩ := ih k defined legal_a around marked.2 in_a all.2
  have solves_c := in_c.solves all.1
  refine ⟨?_, solves_append.mpr ⟨solves_c, solves_append.mpr ⟨solves, marked.1, trivial⟩⟩⟩
  funext s
  rw [den_append, den_unless asked positive solves_c, den_append, marked.1, ends_step rfl]
  cases (c.value lang s).1 with
  | true => exact congrFun meant _
  | false => rfl

theorem meant_ifelse {lab : Nat} {c : Cond X} {a b : Statement X}
    (iha : Meant front lang body exit K A a) (ihb : Meant front lang body exit K A b) :
    Meant front lang body exit K A (.ifelse lab c a b) := by
  intro k defined legal around marked inner all
  obtain ⟨asked, positive, legal_a, legal_b⟩ := legal
  rw [Statement.nodes_ifelse] at inner ⊢
  obtain ⟨in_c, in_rest⟩ := solvesAt_append.mp inner
  obtain ⟨in_a, -, in_b⟩ := solvesAt_append.mp in_rest
  obtain ⟨in_b, -⟩ := solvesAt_append.mp in_b
  replace marked := List.forall_mem_cons.mp marked
  rw [List.forall_mem_cons, List.forall_mem_append] at marked
  obtain ⟨other, last, marked_a, marked_b⟩ := marked
  replace defined := List.forall_mem_append.mp defined
  replace all := List.forall_mem_append.mp all
  rw [List.forall_mem_append] at all
  have solves_c := in_c.solves all.1
  change SolvesAt (exec lang) K (K (lab + 1)) A _ at in_a
  rw [last] at in_a
  obtain ⟨meant_a, solves_a⟩ := iha k defined.1 legal_a around marked_a in_a all.2.1
  obtain ⟨meant_b, solves_b⟩ := ihb k defined.2 legal_b around marked_b in_b all.2.2
  have at_b : den (exec lang) K (Ends lang body (.resume k))
    (b.nodes front exit k.loopLab k.swp ++ [.label (lab + 1)]) =
      Ends lang body (.run b k) := by
    rw [den_append]
    exact meant_b
  refine ⟨?_, solves_append.mpr
    ⟨solves_c, solves_append.mpr ⟨?_, ?_, solves_append.mpr ⟨solves_b, last, trivial⟩⟩⟩⟩
  · funext s
    rw [den_append, den_unless asked positive solves_c, den_append, other, ends_step rfl]
    cases (c.value lang s).1 with
    | true =>
      change den (exec lang) K (K (lab + 1)) _ _ = _
      rw [last]
      exact congrFun meant_a _
    | false => rfl
  · change Solves (exec lang) K (K (lab + 1)) _
    rw [last]
    exact solves_a
  · rw [at_b]
    exact other

theorem meant_whilestmt {lab : Nat} {c : Cond X} {a : Statement X}
    (ih : Meant front lang body exit K A a) :
    Meant front lang body exit K A (.whilestmt lab c a) := by
  intro k defined legal around marked inner all
  obtain ⟨asked, order, positive, legal_a⟩ := legal
  rw [Statement.nodes_whilestmt] at inner ⊢
  replace marked := List.forall_mem_cons.mp marked
  rw [List.forall_mem_cons, List.forall_mem_cons] at marked
  obtain ⟨again, next, leaves, marked_a⟩ := marked
  replace all := List.forall_mem_append.mp all
  refine ⟨?_, meant_loop asked (fun c' is => Option.some.inj is ▸ positive) again next leaves
    (fun never => absurd never Bool.false_ne_true) inner all.1 fun in_a => ih
    (.loop lab none (some c) a k) defined legal_a
    ⟨order, next, leaves, around⟩ marked_a in_a all.2⟩
  funext s
  exact (congrFun next s).trans (ends_step rfl).symm

theorem meant_dostmt {lab : Nat} {c : Cond X} {a : Statement X}
    (ih : Meant front lang body exit K A a) :
    Meant front lang body exit K A (.dostmt lab c a) := by
  intro k defined legal around marked inner all
  obtain ⟨asked, order, positive, legal_a⟩ := legal
  rw [Statement.nodes_dostmt] at inner ⊢
  replace marked := List.forall_mem_cons.mp marked
  rw [List.forall_mem_cons, List.forall_mem_cons] at marked
  obtain ⟨again, next, leaves, marked_a⟩ := marked
  replace all := List.forall_mem_append.mp all
  have solves := meant_loop asked (fun c' is => Option.some.inj is ▸ positive) again next leaves
    (fun never => absurd never Bool.false_ne_true) inner all.1 fun in_a => ih
    (.loop lab none (some c) a k) defined legal_a
    ⟨order, next, leaves, around⟩ marked_a in_a all.2
  refine ⟨?_, solves⟩
  have here := solves.1
  exact here.symm.trans (again.trans (funext fun s => (ends_step rfl).symm))

theorem meant_forstmt {lab : Nat} {e1 e3 : Option X} {e2 : Option (Cond X)} {a : Statement X}
    (sees : front.Sees lang) (ih : Meant front lang body exit K A a) :
    Meant front lang body exit K A (.forstmt lab e1 e2 e3 a) := by
  intro k defined legal around marked inner all
  obtain ⟨asked, order, positive, legal_a⟩ := legal
  rw [Statement.nodes_forstmt] at inner ⊢
  replace marked := List.forall_mem_cons.mp marked
  rw [List.forall_mem_cons, List.forall_mem_cons, List.forall_mem_append] at marked
  obtain ⟨again, next, leaves, tests, marked_a⟩ := marked
  replace all := List.forall_mem_append.mp all
  obtain ⟨-, in_loop⟩ := solvesAt_append.mp ((solvesAt_evalNodes e1 _).mp inner)
  have solves := meant_loop asked positive again next leaves
    (fun tested _ => tests (lab + 3, _) (by rw [if_pos tested]; exact List.mem_singleton_self _))
    in_loop all.1 fun in_a => ih (.loop lab e3 e2 a k) defined legal_a
      ⟨order, next, leaves, around⟩ marked_a in_a all.2
  refine ⟨?_, solves_append.mpr ⟨solves_evalNodes e1, solves_append.mpr ⟨?_, solves⟩⟩⟩
  · funext s
    rw [den_evalNodes, ends_step rfl]
    have decides : testing lang e2 (K lab) (Ends lang body (.resume k)) (effect lang e1 s) =
        Ends lang body (if (test lang e2 (effect lang e1 s)).1 then .run a (.loop lab e3 e2 a k)
          else .resume k)
          (test lang e2 (effect lang e1 s)).2 := by
      rw [testing, again]
      cases (test lang e2 (effect lang e1 s)).1 <;> rfl
    refine Eq.trans ?_ decides
    cases tested : Statement.isTested front e1 e2 with
    | true =>
      have mark : K (lab + 3) = _ :=
          tests (lab + 3, _) (by rw [if_pos tested]; exact List.mem_singleton_self _)
      rw [again]
      exact congrFun mark _
    | false =>
      rw [tested] at solves
      rw [testing_of_not_isTested sees tested]
      exact congrFun solves.1.symm _
  · cases Statement.isTested front e1 e2 <;> trivial

theorem meant_swstmt {lab sym label : Nat} {save : Option X} {a : Statement X}
    (ih : Meant front lang body exit K A a) :
    Meant front lang body exit K A (.swstmt lab save sym label a) := by
  intro k defined legal around marked inner all
  obtain ⟨order, once, -, unsigned, legal_a⟩ := legal
  rw [Statement.nodes_swstmt] at inner ⊢
  replace marked := List.forall_mem_cons.mp marked
  rw [List.forall_mem_append] at marked
  obtain ⟨leaves, missing, marked_a⟩ := marked
  replace all := List.forall_mem_append.mp all
  obtain ⟨in_dispatch, in_rest⟩ := solvesAt_append.mp ((solvesAt_evalNodes save _).mp inner)
  obtain ⟨in_a, -⟩ := solvesAt_append.mp in_rest
  have resumes : Ends lang body (.resume k) = Ends lang body (.resume (.switch lab k)) :=
    funext fun s => (ends_step rfl).symm
  have behind : den (exec lang) K (Ends lang body (.resume k))
      ((if a.hasDefault then [] else [.label lab]) ++ [.label (lab + 1)]) =
      Ends lang body (.resume (.switch lab k)) := by
    rw [← resumes]
    cases a.hasDefault <;> rfl
  rw [behind] at in_a
  obtain ⟨meant, solves⟩ :=
    ih (.switch lab k) defined legal_a ⟨order, leaves, around⟩ marked_a in_a all.2
  have default (none_there : a.hasDefault = false) : K lab = Ends lang body (.resume k) := by
    rw [none_there] at missing
    exact missing (lab, _) (List.mem_singleton_self _)
  have solves_dispatch := in_dispatch.solves all.1
  have sorted := ascending_of_descending (a.cases_descending List.Pairwise.nil) once
  refine ⟨?_, solves_append.mpr
    ⟨solves_evalNodes save, solves_append.mpr ⟨solves_dispatch, solves_append.mpr ⟨?_, ?_⟩⟩⟩⟩
  · funext s
    rw [den_evalNodes, den_append, den_dispatch _ _ sorted
      (fun is => unsigned is _) label solves_dispatch, ends_step rfl,
      select_target (W := Ends lang body) (k := .switch lab k) _ rfl once
        (fun e mem => marked_a (e.1.lab, Ends lang body e.2) (entries_marks a _ e mem))
        (fun none_there => (default none_there).trans resumes)]
  · rw [behind]
    exact solves
  · cases there : a.hasDefault with
    | true => exact ⟨leaves, trivial⟩
    | false => exact ⟨(default there).trans rfl, leaves, trivial⟩

theorem meant_goto {lab : Nat}
    (entered : ∀ e ∈ entries body .stop, K e.1.lab = Ends lang body e.2) :
    Meant front lang body exit K A (.goto lab) := by
  intro k defined legal around marked inner all
  obtain ⟨e', mem, is⟩ := defined lab (List.mem_singleton_self _)
  have some_entry : ((entries body .stop).find? fun e => e.1.isLabel lab).isSome = true :=
    List.find?_isSome.mpr ⟨e', mem, is⟩
  obtain ⟨e, found⟩ := Option.isSome_iff_exists.mp some_entry
  have does (s : S) : step lang body (.run (.goto lab) k) s = some (e.2, s) := by
    rw [step, found]
    rfl
  have is := List.find?_some found
  have here : e.1.lab = lab := Entry.lab_of_isLabel is
  have meant := entered e (List.mem_of_find?_eq_some found)
  rw [here] at meant
  exact ⟨meant.trans (funext fun s => (ends_step (does s)).symm), trivial⟩

theorem meant_all (sees : front.Sees lang)
    (entered : ∀ e ∈ entries body .stop, K e.1.lab = Ends lang body e.2) (a : Statement X) :
    Meant front lang body exit K A a := by
  induction a with
  | expr x w =>
    intro k defined legal around marked inner all
    rw [Statement.nodes_expr]
    refine ⟨?_, trivial⟩
    funext s
    exact (ends_step rfl).symm
  | empty | nil =>
    intro k defined legal around marked inner all
    exact ⟨funext fun s => (ends_step rfl).symm, trivial⟩
  | compound a ih =>
    intro k defined legal around marked inner all
    rw [Statement.nodes_compound] at inner ⊢
    obtain ⟨meant, solves⟩ := ih k defined legal around marked inner all
    exact ⟨meant.trans (funext fun s => (ends_step rfl).symm), solves⟩
  | seq a b iha ihb => exact meant_seq iha ihb
  | ifstmt lab c a ih => exact meant_ifstmt ih
  | ifelse lab c a b iha ihb => exact meant_ifelse iha ihb
  | whilestmt lab c a ih => exact meant_whilestmt ih
  | dostmt lab c a ih => exact meant_dostmt ih
  | forstmt lab e1 e2 e3 a ih => exact meant_forstmt sees ih
  | swstmt lab save sym label a ih => exact meant_swstmt ih
  | caseLab lab vals a ih | deflt a ih =>
    intro k defined legal around marked inner all
    replace marked := List.forall_mem_cons.mp marked
    obtain ⟨meant, solves⟩ := ih k defined legal.2 around marked.2 inner.2 all
    exact ⟨meant.trans (funext fun s => (ends_step rfl).symm), marked.1.trans meant.symm, solves⟩
  | stmtlabel lab a ih =>
    intro k defined legal around marked inner all
    replace marked := List.forall_mem_cons.mp marked
    obtain ⟨meant, solves⟩ := ih k defined legal around marked.2 inner.2 all
    exact ⟨meant.trans (funext fun s => (ends_step rfl).symm), marked.1.trans meant.symm, solves⟩
  | brk =>
    intro k defined legal around marked inner all
    obtain ⟨k', goes, meant⟩ := around.breaks legal
    have does (s : S) : step lang body (.run .brk k) s = some (.resume k', s) := by
      rw [step, goes]
      rfl
    exact ⟨meant.trans (funext fun s => (ends_step (does s)).symm), trivial⟩
  | cont =>
    intro k defined legal around marked inner all
    obtain ⟨k', goes, meant⟩ := around.continues legal
    have does (s : S) : step lang body (.run .cont k) s = some (.resume k', s) := by
      rw [step, goes]
      rfl
    exact ⟨meant.trans (funext fun s => (ends_step (does s)).symm), trivial⟩
  | ret x =>
    intro k defined legal around marked inner all
    rw [Statement.nodes_ret]
    refine ⟨?_, solves_append.mpr ⟨solves_evalNodes x, trivial⟩⟩
    funext s
    rw [den_evalNodes, ends_step rfl]
    exact congrFun around.exits _
  | goto lab => exact meant_goto entered

end

theorem exists_meanings (ms : List (Nat × Meaning S)) (once : (ms.map fun m => m.1).Nodup) :
    ∃ K : Nat → Meaning S, ∀ m ∈ ms, K m.1 = m.2 := by
  induction ms with
  | nil => exact ⟨fun _ _ _ => False, fun m mem => absurd mem List.not_mem_nil⟩
  | cons m ms ih =>
    obtain ⟨new, once'⟩ := List.nodup_cons.mp once
    obtain ⟨K, means⟩ := ih once'
    refine ⟨Function.update K m.1 m.2, List.forall_mem_cons.mpr
      ⟨Function.update_self .., fun m' mem => ?_⟩⟩
    rw [Function.update_of_ne (ne_of_mem_of_not_mem (List.mem_map_of_mem mem) new)]
    exact means m' mem

theorem nodes_runs (sees : front.Sees lang) (legal : body.Legal front lang 0 none)
    (defined : ∀ l ∈ body.gotos, ∃ e ∈ entries body .stop, e.1.isLabel l = true)
    (once : (labels (funcdefn front exit body).nodes).Nodup) (s t : S) :
    Runs (exec lang) (funcdefn front exit body).nodes (funcdefn front exit body).nodes s t ↔
      Ends lang body (.run body .stop) s t := by
  rw [funcdefn_nodes] at once ⊢
  constructor
  · intro ran
    let ms : List (Nat × Meaning S) :=
      (exit, Ends lang body (.resume .stop)) :: marks front lang body body .stop
    have counts (l : Nat) : (labels (body.nodes front exit 0 none ++ [.label exit])).count l =
        (ms.map fun m => m.1).count l + (body.inner front).count l := by
      have in_body : (labels (body.nodes front exit 0 none)).count l =
          ((marks front lang body body .stop).map fun m => m.1).count l +
          (body.inner front).count l := labels_nodes body .stop l
      have last : (labels [(Node.label exit : Node Nat (Instr X))]).count l = [exit].count l := rfl
      rw [labels_append, List.count_append, last, in_body, List.map_cons]
      simp only [List.count_cons, List.count_nil]
      omega
    have at_most (l : Nat) := List.nodup_iff_count_le_one.mp once l
    obtain ⟨K₀, means⟩ := exists_meanings ms (List.nodup_iff_count_le_one.mpr fun l => by
      have here := at_most l
      rw [counts] at here
      omega)
    obtain ⟨K, others, inner⟩ :=
      exists_solvesAt once (fun l => l ∈ body.inner front) (exec lang) K₀ Eq
    have marked : ∀ m ∈ ms, K m.1 = m.2 := by
      intro m mem
      refine (others m.1 fun inside => ?_).trans (means m mem)
      have here := at_most m.1
      rw [counts] at here
      have one := List.count_pos_iff.mpr (List.mem_map_of_mem (f := fun m => m.1) mem)
      have two := List.count_pos_iff.mpr inside
      omega
    rw [solvesAt_append] at inner
    have at_end : den (exec lang) K Eq [.label exit] = Ends lang body (.resume .stop) :=
      ends_stop.symm
    rw [at_end] at inner
    obtain ⟨exits, marked⟩ := List.forall_mem_cons.mp marked
    obtain ⟨meant, solves⟩ := meant_all sees
      (fun e mem => marked (e.1.lab, Ends lang body e.2) (entries_marks body .stop e mem))
      body .stop defined legal exits marked inner.1 fun l mem => mem
    have whole : Solves (exec lang) K Eq (body.nodes front exit 0 none ++ [.label exit]) := by
      rw [solves_append, at_end]
      exact ⟨solves, exits.trans ends_stop, trivial⟩
    have means := ran.den_of_solves whole
    rw [den_append, at_end] at means
    rw [← meant]
    exact means
  · intro ends
    have whole : Solves (exec lang) _ Eq (body.nodes front exit 0 none ++ [.label exit]) :=
      runsAt_solves once (List.suffix_refl _)
    obtain ⟨solves, exits, -⟩ := solves_append.mp whole
    refine runs_iff.mpr ?_
    rw [den_append]
    exact den_of_ends sees ⟨solves, legal⟩ exits ends ⟨⟨solves, legal⟩, exits⟩

end LC3Tools.Stmt
