import LC3Tools.Lcc.Switch

/-! Statements: what they do, and the calls that `statement` in `stmt.c` makes for them. A statement
stands with the labels that it gets from `genlabel`. -/
namespace LC3Tools.Stmt
open Labels CodeList

/-- What the statements see of expressions and variables, and `density`. -/
structure Front (X : Type) where
  assigned : X → Option (Nat × Int)
  isVariable : X → Option Nat
  constant : X → Option Int
  isUnsigned : Nat → Bool
  dense : Nat → Int → Bool

/-- What is seen is so. -/
structure Front.Sees {X S : Type} (front : Front X) (lang : Language X S) : Prop where
  assigned : ∀ {x v c}, front.assigned x = some (v, c) → ∀ s, lang.read v (lang.value x s).2 = c
  isVariable : ∀ {x v}, front.isVariable x = some v → ∀ s, lang.value x s = (lang.read v s, s)
  constant : ∀ {x c}, front.constant x = some c → ∀ s, lang.value x s = (c, s)

/-- An expression statement may leave its nodes to the ones that follow. A switch statement saves
its selector in a variable if it is not one, and has the label from which its dispatch counts. -/
inductive Statement (X : Type) where
  | expr (x : X) (waits : Bool)
  | empty
  | compound (a : Statement X)
  | seq (a b : Statement X)
  | nil
  | ifstmt (lab : Nat) (c : Cond X) (a : Statement X)
  | ifelse (lab : Nat) (c : Cond X) (a b : Statement X)
  | whilestmt (lab : Nat) (c : Cond X) (a : Statement X)
  | dostmt (lab : Nat) (c : Cond X) (a : Statement X)
  | forstmt (lab : Nat) (e1 : Option X) (e2 : Option (Cond X)) (e3 : Option X) (a : Statement X)
  | swstmt (lab : Nat) (save : Option X) (sym label : Nat) (a : Statement X)
  | caseLab (lab : Nat) (vals : List Int) (a : Statement X)
  | deflt (a : Statement X)
  | brk
  | cont
  | ret (x : Option X)
  | goto (lab : Nat)
  | stmtlabel (lab : Nat) (a : Statement X)

/-- What is left to do behind a statement. -/
inductive Kont (X : Type) where
  | stop
  | seq (b : Statement X) (k : Kont X)
  | loop (lab : Nat) (e3 : Option X) (e2 : Option (Cond X)) (a : Statement X) (k : Kont X)
  | switch (lab : Nat) (k : Kont X)

namespace Kont
variable {X : Type}

def breakTo : Kont X → Option (Kont X)
  | stop => none
  | seq _ k => breakTo k
  | loop _ _ _ _ k => some k
  | switch _ k => some k

def continueTo : Kont X → Option (Kont X)
  | stop => none
  | seq _ k => continueTo k
  | loop lab e3 e2 a k => some (loop lab e3 e2 a k)
  | switch _ k => continueTo k

/-- The label of the loop around a statement. -/
def loopLab : Kont X → Nat
  | stop => 0
  | seq _ k => loopLab k
  | loop lab _ _ _ _ => lab
  | switch _ k => loopLab k

/-- The label of the switch statement around a statement. -/
def swp : Kont X → Option Nat
  | stop => none
  | seq _ k => swp k
  | loop _ _ _ _ k => swp k
  | switch lab _ => some lab

end Kont

inductive Place (X : Type) where
  | run (a : Statement X) (k : Kont X)
  | resume (k : Kont X)

/-- Where a statement can be entered. The cases of a switch statement in it are not its own. -/
inductive Entry where
  | label (lab : Nat)
  | case (lab : Nat) (vals : List Int)
  | deflt (lab : Nat)
  | inner (lab : Nat)

namespace Entry

def lab : Entry → Nat
  | label lab | case lab _ | deflt lab | inner lab => lab

def hide : Entry → Entry
  | label lab => label lab
  | case lab _ | deflt lab | inner lab => inner lab

def isLabel (l : Nat) : Entry → Bool
  | label lab => lab = l
  | _ => false

def takes (x : Int) : Entry → Bool
  | case _ vals => x ∈ vals
  | _ => false

def isDefault : Entry → Bool
  | deflt _ => true
  | _ => false

theorem lab_label (l : Nat) : (label l).lab = l := rfl

theorem lab_case (l : Nat) (vals : List Int) : (case l vals).lab = l := rfl

theorem lab_deflt (l : Nat) : (deflt l).lab = l := rfl

@[simp] theorem lab_hide (e : Entry) : e.hide.lab = e.lab := by
  cases e <;> rfl

theorem lab_of_isLabel {e : Entry} {l : Nat} (is : e.isLabel l = true) : e.lab = l := by
  cases e with
  | label lab => exact of_decide_eq_true is
  | case | deflt | inner => cases is

end Entry

section
variable {X S : Type}

def entries : Statement X → Kont X → List (Entry × Place X)
  | .compound a, k | .ifstmt _ _ a, k => entries a k
  | .seq a b, k => entries a (.seq b k) ++ entries b k
  | .ifelse _ _ a b, k => entries a k ++ entries b k
  | .whilestmt lab c a, k | .dostmt lab c a, k => entries a (.loop lab none (some c) a k)
  | .forstmt lab _ e2 e3 a, k => entries a (.loop lab e3 e2 a k)
  | .swstmt lab _ _ _ a, k => (entries a (.switch lab k)).map fun e => (e.1.hide, e.2)
  | .caseLab lab vals a, k => (.case lab vals, .run a k) :: entries a k
  | .deflt a, k => (.deflt (k.swp.getD 0), .run a k) :: entries a k
  | .stmtlabel lab a, k => (.label lab, .run a k) :: entries a k
  | .expr .., _ | .empty, _ | .nil, _ | .brk, _ | .cont, _ | .ret _, _ | .goto _, _ => []

/-- Where the body of a switch statement is entered. -/
def select (x : Int) (a : Statement X) (k : Kont X) : Place X :=
  match (entries a k).find? fun e => e.1.takes x with
  | some e => e.2
  | none =>
    match (entries a k).find? fun e => e.1.isDefault with
    | some e => e.2
    | none => .resume k

def effect (lang : Language X S) (x : Option X) (s : S) : S := x.elim s fun x => (lang.value x s).2

def test (lang : Language X S) (c : Option (Cond X)) (s : S) : Bool × S :=
  c.elim (true, s) fun c => c.value lang s

/-- A step in a function with this body. -/
def step (lang : Language X S) (body : Statement X) : Place X → S → Option (Place X × S)
  | .run (.expr x _) k, s => some (.resume k, (lang.value x s).2)
  | .run .empty k, s | .run .nil k, s => some (.resume k, s)
  | .run (.compound a) k, s => some (.run a k, s)
  | .run (.seq a b) k, s => some (.run a (.seq b k), s)
  | .run (.ifstmt _ c a) k, s =>
    let r := c.value lang s
    some (if r.1 then .run a k else .resume k, r.2)
  | .run (.ifelse _ c a b) k, s =>
    let r := c.value lang s
    some (if r.1 then .run a k else .run b k, r.2)
  | .run (.whilestmt lab c a) k, s => some (.resume (.loop lab none (some c) a k), s)
  | .run (.dostmt lab c a) k, s => some (.run a (.loop lab none (some c) a k), s)
  | .run (.forstmt lab e1 e2 e3 a) k, s =>
    let r := test lang e2 (effect lang e1 s)
    some (if r.1 then .run a (.loop lab e3 e2 a k) else .resume k, r.2)
  | .run (.swstmt lab save sym _ a) k, s =>
    let s := effect lang save s
    some (select (lang.get sym s) a (.switch lab k), s)
  | .run (.caseLab _ _ a) k, s | .run (.deflt a) k, s
    | .run (.stmtlabel _ a) k, s => some (.run a k, s)
  | .run .brk k, s => k.breakTo.map fun k => (.resume k, s)
  | .run .cont k, s => k.continueTo.map fun k => (.resume k, s)
  | .run (.ret x) _, s => some (.resume .stop, effect lang x s)
  | .run (.goto lab) _, s =>
    ((entries body .stop).find? fun e => e.1.isLabel lab).map fun e => (e.2, s)
  | .resume .stop, _ => none
  | .resume (.seq b k), s => some (.run b k, s)
  | .resume (.loop lab e3 e2 a k), s =>
    let r := test lang e2 (effect lang e3 s)
    some (if r.1 then .run a (.loop lab e3 e2 a k) else .resume k, r.2)
  | .resume (.switch _ k), s => some (.resume k, s)

/-- The runs to the end of the function. -/
inductive Ends (lang : Language X S) (body : Statement X) : Place X → Meaning S where
  | stop (s : S) : Ends lang body (.resume .stop) s s
  | step {p p' : Place X} {s s' t : S} (does : step lang body p s = some (p', s'))
      (later : Ends lang body p' s' t) : Ends lang body p s t

end

/-! The calls. -/

section
variable {X : Type}

/-- Whether the test in front of a for statement holds. -/
def foldcond (front : Front X) : Option X → Option (Cond X) → Bool
  | some e1, some (.rel op l r) =>
    match front.assigned e1, front.isVariable l, front.constant r with
    | some (v, c), some v', some c' => v' = v ∧ op.holds c c'
    | _, _, _ => false
  | _, _ => false

namespace Statement

/-- `swp->deflab` behind the statement. -/
def hasDefault : Statement X → Bool
  | compound a | ifstmt _ _ a | whilestmt _ _ a | dostmt _ _ a | forstmt _ _ _ _ a | caseLab _ _ a
    | stmtlabel _ a => a.hasDefault
  | seq a b | ifelse _ _ a b => a.hasDefault || b.hasDefault
  | deflt _ => true
  | expr .. | empty | nil | swstmt .. | brk | cont | ret _ | goto _ => false

/-- The cases of `swp` behind the statement, the last one first. -/
def cases : Statement X → List Case → List Case
  | compound a, cs | ifstmt _ _ a, cs | whilestmt _ _ a, cs | dostmt _ _ a, cs | forstmt _ _ _ _ a,
    cs | deflt a, cs
  | stmtlabel _ a, cs => a.cases cs
  | seq a b, cs | ifelse _ _ a b, cs => b.cases (a.cases cs)
  | caseLab lab vals a, cs => a.cases (vals.foldl (fun cs val => Stmt.caselabel val lab cs) cs)
  | expr .., cs | empty, cs | nil, cs | swstmt .., cs | brk, cs | cont, cs | ret _, cs
    | goto _, cs => cs

end Statement

def before (cs : List (Call (Instr X))) (rest : Calls (Instr X)) : Calls (Instr X) :=
  cs.foldr .call rest

/-- `walk` of an expression, if there is one. -/
def walkExpr (x : Option X) : List (Call (Instr X)) :=
  x.elim [] fun x => [.list (.eval x) [], .walk]

def walkCond (c : Cond X) (tlab flab : Nat) : List (Call (Instr X)) :=
  listnodes tlab flab c ++ [.walk]

/-- Where a break statement goes. -/
def breakLab (loop : Nat) (swp : Option Nat) : Nat :=
  match swp with
  | some lab => if loop < lab then lab + 1 else loop + 2
  | none => loop + 2

/-- The end of a loop with its test. -/
def loopEnd (lab : Nat) (e3 : Option X) (e2 : Option (Cond X)) (tested : Bool) :
    List (Call (Instr X)) :=
  .defineLab (lab + 1) :: .point :: walkExpr e3 ++
    e2.elim [.point, .branch lab] fun c =>
      (if tested then [.defineLab (lab + 3)] else []) ++ .point :: walkCond c lab 0

/-- `statement`, in front of the calls that follow, in a function that returns at `exit`. -/
def Statement.calls (front : Front X) (exit : Nat) : Statement X → Nat → Option Nat →
    Calls (Instr X) → Calls (Instr X)
  | expr x waits, _, _, rest =>
      before (.point :: .list (.eval x) [] :: if waits then [] else [.walk]) rest
  | empty, _, _, rest => before [.point] rest
  | compound a, loop, swp, rest =>
    before [.walk, .point, .point] (a.calls front exit loop swp (before [.walk, .point] rest))
  | seq a b, loop, swp, rest => a.calls front exit loop swp (b.calls front exit loop swp rest)
  | nil, _, _, rest => rest
  | ifstmt lab c a, loop, swp, rest =>
    before (.point :: walkCond c 0 lab) (a.calls front exit loop swp (before [.defineLab lab] rest))
  | ifelse lab c a b, loop, swp, rest =>
    before (.point :: walkCond c 0 lab) (a.calls front exit loop swp
      (before [.branch (lab + 1), .defineLab lab]
        (b.calls front exit loop swp (.close (lab + 1) rest))))
  | whilestmt lab c a, _, swp, rest =>
    before [.walk, .branch (lab + 1), .defineLab lab] (a.calls front exit lab swp
      (before (loopEnd lab none (some c) false) (.close (lab + 2) rest)))
  | dostmt lab c a, _, swp, rest =>
    before [.defineLab lab] (a.calls front exit lab swp
      (before (loopEnd lab none (some c) false) (.close (lab + 2) rest)))
  | forstmt lab e1 e2 e3 a, _, swp, rest =>
    let tested := e2.isSome && !foldcond front e1 e2
    before (.point :: walkExpr e1 ++ .walk :: (if tested then [.branch (lab + 3)] else []) ++
      [.defineLab lab])
      (a.calls front exit lab swp (before (loopEnd lab e3 e2 tested) (.close (lab + 2) rest)))
  | swstmt lab save sym label a, loop, _, rest =>
    before (.point :: walkExpr save ++ [.walk])
      (.switch (a.calls front exit loop (some lab)
          (before (if a.hasDefault then [] else [.defineLab lab]) (.close (lab + 1) .done)))
        (dispatch front.dense (front.isUnsigned sym) sym lab (a.cases []).reverse label) rest)
  | caseLab lab _ a, loop, swp, rest => before [.defineLab lab] (a.calls front exit loop swp rest)
  | deflt a, loop, swp, rest => before [.defineLab (swp.getD 0)] (a.calls front exit loop swp rest)
  | brk, loop, swp, rest => before [.walk, .point, .branch (breakLab loop swp)] rest
  | cont, loop, _, rest => before [.walk, .point, .branch (loop + 1)] rest
  | ret x, _, _, rest => before (.point :: walkExpr x ++ [.branch exit]) rest
  | goto lab, _, _, rest => before [.walk, .point, .branch lab] rest
  | stmtlabel lab a, loop, swp, rest => before [.defineLab lab] (a.calls front exit loop swp rest)

/-- `funcdefn` -/
def funcdefn (front : Front X) (exit : Nat) (body : Statement X) : Calls (Instr X) :=
  (Statement.compound body).calls front exit 0 none (before [.defineLab exit, .walk] .done)

end

end LC3Tools.Stmt
