import LC3Tools.Labels
import LC3Tools.BitFields

/-! The code list of a function: `branch`, `definelab`, `equatelab` and `code` of `stmt.c`, `list`,
`labelnode`, `walk` and `equated` of `dag.c`. Jumps and labels are taken out of the list while it is
written. The list runs like the calls do that wrote it, one node after the other. -/
namespace LC3Tools.CodeList
open Labels

/-- `u.l.equatedto` of the labels. The ranks fall along the chains. -/
structure Equated where
  to? : Nat → Option Nat
  rank : Nat → Nat
  falls : ∀ {l l' : Nat}, to? l = some l' → rank l' < rank l

namespace Equated
variable (q : Equated)

def equated (p : Nat) : Nat :=
  match _h : q.to? p with
  | some q' => equated q'
  | none => p
termination_by q.rank p
decreasing_by exact q.falls _h

def equal (lprime dst : Nat) : Bool :=
  lprime = dst || match _h : q.to? dst with
    | some dst => equal lprime dst
    | none => false
termination_by q.rank dst
decreasing_by exact q.falls _h

def empty : Equated where
  to? := fun _ => none
  rank := fun _ => 0
  falls := by
    rintro l l' ⟨⟩

variable {q} {l l' p old new : Nat}

theorem equated_some (next : q.to? l = some l') : q.equated l = q.equated l' := by
  rw [equated]
  split
  · rename_i found
    cases next.symm.trans found
    rfl
  · rename_i found
    cases next.symm.trans found

theorem equated_none (last : q.to? l = none) : q.equated l = l := by
  rw [equated]
  split
  · rename_i found
    cases last.symm.trans found
  · rfl

theorem equal_some (next : q.to? l = some l') : q.equal p l = (decide (p = l) || q.equal p l') := by
  rw [equal]
  split
  · rename_i found
    cases next.symm.trans found
    rfl
  · rename_i found
    cases next.symm.trans found

theorem equal_none (last : q.to? l = none) : q.equal p l = decide (p = l) := by
  rw [equal]
  split
  · rename_i found
    cases last.symm.trans found
  · rw [Bool.or_false]

theorem equated_ne (other : q.equal old l = false) : q.equated l ≠ old := by
  induction l using equated.induct q with
  | case1 l l' next ih =>
    rw [equal_some next, Bool.or_eq_false_iff] at other
    rw [equated_some next]
    exact ih other.2
  | case2 l last =>
    rw [equal_none last, decide_eq_false_iff_not] at other
    rw [equated_none last]
    exact fun same => other same.symm

def equateLab (q : Equated) (old new : Nat) (last : q.to? old = none)
    (other : q.equal old new = false) : Equated where
  to? := fun l => if l = old then some new else q.to? l
  rank := fun l => q.rank l + if q.equated l = old then q.rank new + 1 else 0
  falls := by
    intro l l' next
    split at next
    · subst l
      cases next
      rw [if_neg (equated_ne other), if_pos (equated_none last)]
      omega
    · have lower := q.falls next
      rw [equated_some next]
      omega

end Equated

/-- What `findlabel` finds for a label. -/
structure Symbols where
  equated : Equated
  ref : Nat → Nat

namespace Symbols
variable (t : Symbols)

def addRef (lab : Nat) : Symbols :=
  { t with ref := fun l => if l = lab then t.ref l + 1 else t.ref l }

def subRef (lab : Nat) : Symbols :=
  { t with ref := fun l => if l = lab then t.ref l - 1 else t.ref l }

/-- With its assertion, and the one of `equated`. -/
def equateLab (old new : Nat) : Symbols :=
  if asserted : t.equated.to? old = none ∧ t.equated.equal old new = false then
    { t with equated := t.equated.equateLab old new asserted.1 asserted.2 }.addRef new
  else t

end Symbols

variable {I : Type}

/-- The kinds below Label are one: none of them is code. A table stands with the jump through it,
and the head of a switch statement is of its kind too. -/
inductive Code (I : Type) where
  | point
  | label (lab : Nat)
  | start
  | gen (forest : List (Node Nat I))
  | jump (lab : Nat)
  | switch (table : I) (labels : List Nat)
  | head

/-- `codelist` and `forest`, both with the last entry first. -/
structure Emit (I : Type) where
  code : List (Code I)
  forest : List (Node Nat I)
  symbols : Symbols

/-- The loops of `definelab`: the jumps to the label that only labels stand behind. -/
def dropJumps (lab : Nat) : List (Code I) → Symbols → List (Code I) × Symbols
  | .point :: prev, t =>
    let r := dropJumps lab prev t
    (.point :: r.1, r.2)
  | .label m :: prev, t =>
    let r := dropJumps lab prev t
    (.label m :: r.1, r.2)
  | .jump l :: prev, t =>
      if l = lab then dropJumps lab prev (t.subRef lab) else (.jump l :: prev, t)
  | code, t => (code, t)

/-- The loops of `branch`: the labels in front of the jump. -/
def absorb (lab : Nat) : List (Code I) → Symbols → List (Code I) × Symbols
  | .point :: prev, t =>
    let r := absorb lab prev t
    (.point :: r.1, r.2)
  | .label m :: prev, t =>
    if t.equated.equal m lab then (.label m :: prev, t) else absorb lab prev (t.equateLab m lab)
  | code, t => (code, t)

/-- Nothing goes on behind a Jump or a Switch. -/
def isSealed : List (Code I) → Bool
  | .point :: prev => isSealed prev
  | .jump _ :: _ | .switch .. :: _ | .head :: _ => true
  | _ => false

namespace Emit
variable (e : Emit I)

def list (p : Node Nat I) : Emit I := { e with forest := p :: e.forest }

/-- `walk (NULL, 0, 0)` -/
def walk : Emit I :=
  match e.forest with
  | [] => e
  | forest => { e with code := .gen forest.reverse :: e.code, forest := [] }

def labelnode (lab : Nat) : Emit I :=
  match e.forest with
  | .label m :: _ => { e with symbols := e.symbols.equateLab lab m }
  | _ => e.list (.label lab)

def branch (lab : Nat) : Emit I :=
  let e := e.walk
  let r := absorb lab e.code (e.symbols.addRef lab)
  if isSealed r.1 then { e with code := r.1, symbols := r.2.subRef lab }
  else { e with code := .jump lab :: r.1, symbols := r.2 }

def defineLab (lab : Nat) : Emit I :=
  let e := e.walk
  let r := dropJumps lab e.code e.symbols
  { e with code := .label lab :: r.1, symbols := r.2 }

end Emit

/-- The calls. An instruction with the labels that it may jump to is a node of the forest; JUMP and
LABEL nodes come from conditions. -/
inductive Call (I : Type) where
  | list (i : I) (labels : List Nat)
  | jumpnode (lab : Nat)
  | labelnode (lab : Nat)
  | walk
  | point
  | branch (lab : Nat)
  | defineLab (lab : Nat)
  | switch (table : I) (labels : List Nat)

def Call.emit : Call I → Emit I → Emit I
  | list i labels, e =>
    { e.list (.act i labels) with symbols := labels.foldl Symbols.addRef e.symbols }
  | jumpnode lab, e => { e.list (.jump lab) with symbols := e.symbols.addRef lab }
  | labelnode lab, e => e.labelnode lab
  | walk, e => e.walk
  | point, e => { e with code := .point :: e.code }
  | branch lab, e => e.branch lab
  | defineLab lab, e => e.defineLab lab
  | switch table labels, e =>
    let e := e.walk
    { e with code := .switch table labels :: e.code }

/-- The calls of a statement. A label may be defined only if it has a reference, and `swstmt` writes
its dispatch in front of its body when that is written. -/
inductive Calls (I : Type) where
  | done
  | call (c : Call I) (rest : Calls I)
  | close (lab : Nat) (rest : Calls I)
  | switch (body : Calls I) (dispatch : List (Call I)) (rest : Calls I)

def Calls.emit : Calls I → Emit I → Emit I
  | done, e => e
  | call c rest, e => rest.emit (c.emit e)
  | close lab rest, e => rest.emit (if e.symbols.ref lab ≠ 0 then e.defineLab lab else e)
  | switch body dispatch rest, e =>
    let tail := body.emit { e with code := [.head] }
    let front := dispatch.foldl (fun e c => c.emit e) { tail with code := e.code }
    rest.emit { front with code := tail.code.dropLast ++ front.code }

/-! Without the list: one node after the other. -/

def Call.nodes : Call I → List (Node Nat I)
  | list i labels => [.act i labels]
  | jumpnode lab | branch lab => [.jump lab]
  | labelnode lab | defineLab lab => [.label lab]
  | walk | point => []
  | switch table labels => [.table table labels]

def Calls.nodes : Calls I → List (Node Nat I)
  | done => []
  | call c rest => c.nodes ++ rest.nodes
  | close lab rest => .label lab :: rest.nodes
  | switch body dispatch rest => dispatch.flatMap Call.nodes ++ (body.nodes ++ rest.nodes)

def Code.nodes : Code I → List (Node Nat I)
  | point | start | head => []
  | label lab => [.label lab]
  | gen forest => forest
  | jump lab => [.jump lab]
  | switch table labels => [.table table labels]

/-- What is generated from the list, where `fixup` has been at every label. -/
def Emit.text (e : Emit I) : List (Node Nat I) :=
  (e.code.reverse.flatMap Code.nodes).map (Node.rename e.symbols.equated.equated)

/-! The equations of a list are the ones of its calls. -/

section
variable {S : Type} (exec : Exec I S) (entry : Meaning S) (K : Nat → Meaning S)

/-- The equations of a list, of its start and of each label in it. -/
def sol (fall : Meaning S) : List (Code I) → Prop
  | .start :: _ => entry = fall
  | .head :: _ | [] => True
  | c :: prev => Solves exec K fall c.nodes ∧ sol (den exec K fall c.nodes) prev

/-- Equated labels mean the same. -/
def Agrees (t : Symbols) : Prop := ∀ l l', t.equated.to? l = some l' → K l = K l'

/-- With the nodes that wait in the forest. -/
structure Sol (fall : Meaning S) (e : Emit I) : Prop where
  code : sol exec entry K (den exec K fall e.forest.reverse) e.code
  forest : Solves exec K fall e.forest.reverse
  agrees : Agrees K e.symbols

end

/-- The labels that stand in a list. -/
def codeLabels (code : List (Code I)) : List Nat := code.flatMap fun c => labels c.nodes

/-- A label of the list is not equated, and it is there once. -/
structure Tidy (e : Emit I) : Prop where
  last : ∀ l ∈ codeLabels e.code ++ labels e.forest, e.symbols.equated.to? l = none
  once : (codeLabels e.code ++ labels e.forest).Nodup

/-- Labels that have a place. -/
def Known (e : Emit I) (l : Nat) : Prop :=
  l ∈ codeLabels e.code ++ labels e.forest ∨ e.symbols.equated.to? l ≠ none

section
variable {S : Type} {exec : Exec I S} {entry : Meaning S} {K : Nat → Meaning S}
  {fall fall' : Meaning S}
  {code prev : List (Code I)}
  {e : Emit I} {t : Symbols} {lab : Nat}

theorem sol_isSealed (sealed : isSealed code = true) : sol exec entry K fall code ↔
    sol exec entry K fall' code := by
  induction code with
  | nil => rfl
  | cons c prev ih =>
    cases c with
    | point => exact and_congr_right' (ih sealed)
    | jump | switch | head => rfl
    | label | start | gen => cases sealed

theorem sol_dropJumps (here : K lab = fall) :
    sol exec entry K fall (dropJumps lab code t).1 ↔ sol exec entry K fall code := by
  induction code generalizing t with
  | nil => rfl
  | cons c prev ih =>
    cases c with
    | point | label => exact and_congr_right' ih
    | start | gen | switch | head => rfl
    | jump l =>
      unfold dropJumps
      split
      · rename_i same
        subst same
        rw [ih, ← here]
        exact (true_and _).symm.to_iff
      · rfl

theorem agrees_equateLab {old new : Nat} (last : t.equated.to? old = none)
    (other : t.equated.equal old new = false) :
    Agrees K (t.equateLab old new) ↔ Agrees K t ∧ K old = K new := by
  unfold Symbols.equateLab Agrees
  rw [dif_pos ⟨last, other⟩]
  change (∀ l l', (if l = old then some new else t.equated.to? l) = some l' → K l = K l') ↔ _
  constructor
  · intro agrees
    refine ⟨fun l l' next => agrees l l' ?_, agrees old new (if_pos rfl)⟩
    rw [if_neg, next]
    rintro rfl
    cases last.symm.trans next
  · rintro ⟨agrees, same⟩ l l' next
    split at next
    · subst l
      cases next
      exact same
    · exact agrees l l' next

theorem equatelab_to? {old new l : Nat} (other : l ≠ old) :
    (t.equateLab old new).equated.to? l = t.equated.to? l := by
  unfold Symbols.equateLab
  split
  · exact if_neg other
  · rfl

theorem absorb_iff (last : ∀ l ∈ codeLabels code, t.equated.to? l = none)
    (once : (codeLabels code).Nodup) :
    sol exec entry K (K lab) (absorb lab code t).1 ∧ Agrees K (absorb lab code t).2 ↔
      sol exec entry K (K lab) code ∧ Agrees K t := by
  induction code generalizing t with
  | nil => rfl
  | cons c prev ih =>
    cases c with
    | point =>
      have later := ih last once
      simp only [absorb, sol, Code.nodes, Solves, den, true_and]
      exact later
    | start | gen | jump | switch | head => rfl
    | label m =>
      have here : t.equated.to? m = none := last m (List.mem_cons_self ..)
      obtain ⟨elsewhere, once'⟩ := List.nodup_cons.mp once
      unfold absorb
      split
      · rfl
      · rename_i other
        have other' := Bool.eq_false_iff.mpr other
        have later := ih (t := t.equateLab m lab)
          (fun l mem => (equatelab_to? (ne_of_mem_of_not_mem mem elsewhere)).trans
            (last l (List.mem_cons_of_mem _ mem)))
          once'
        rw [later, agrees_equateLab here other']
        simp only [sol, Code.nodes, Solves, den, and_true]
        tauto

theorem walk_forest (e : Emit I) : e.walk.forest = [] := by
  unfold Emit.walk
  split
  · assumption
  · rfl

theorem walk_symbols (e : Emit I) : e.walk.symbols = e.symbols := by
  unfold Emit.walk
  split <;> rfl

theorem walk_labels (e : Emit I) : codeLabels e.walk.code ++ labels e.walk.forest =
    labels e.forest.reverse ++ codeLabels e.code := by
  unfold Emit.walk
  split
  · rename_i empty
    rw [empty]
    exact List.append_nil _
  · exact List.append_nil _

theorem Sol.walk_iff : Sol exec entry K fall e.walk ↔ Sol exec entry K fall e := by
  unfold Emit.walk
  split
  · rfl
  · constructor
    · rintro ⟨⟨forest, code⟩, -, agrees⟩
      exact ⟨code, forest, agrees⟩
    · rintro ⟨code, forest, agrees⟩
      exact ⟨⟨forest, code⟩, trivial, agrees⟩

theorem sol_iff (empty : e.forest = []) :
    Sol exec entry K fall e ↔ sol exec entry K fall e.code ∧ Agrees K e.symbols := by
  constructor
  · rintro ⟨code, -, agrees⟩
    rw [empty] at code
    exact ⟨code, agrees⟩
  · rintro ⟨code, agrees⟩
    refine ⟨?_, ?_, agrees⟩ <;> rw [empty]
    · exact code
    · trivial

theorem mem_labels_reverse (forest : List (Node Nat I)) (l : Nat) : l ∈ labels forest.reverse ↔
    l ∈ labels forest := by
  simp only [labels, List.mem_flatMap, List.mem_reverse]

theorem labels_reverse_perm (forest : List (Node Nat I)) :
    (labels forest.reverse).Perm (labels forest) :=
  (List.reverse_perm forest).flatMap_right _

theorem Tidy.walk (tidy : Tidy e) : Tidy e.walk := by
  have perm : (codeLabels e.walk.code ++ labels e.walk.forest).Perm
    (codeLabels e.code ++ labels e.forest) := by
    rw [walk_labels]
    exact ((labels_reverse_perm e.forest).append_right _).trans List.perm_append_comm
  refine ⟨fun l mem => ?_, perm.nodup_iff.mpr tidy.once⟩
  rw [walk_symbols]
  exact tidy.last l (perm.mem_iff.mp mem)

theorem known_walk (l : Nat) : Known e.walk l ↔ Known e l := by
  unfold Known
  rw [walk_labels, walk_symbols]
  simp only [List.mem_append, mem_labels_reverse]
  tauto

theorem sol_list {p : Node Nat I} {t : Symbols} (same : t.equated = e.symbols.equated) :
    Sol exec entry K fall { e.list p with symbols := t } ↔
      Sol exec entry K (den exec K fall [p]) e ∧ Solves exec K fall [p] := by
  have parts : (p :: e.forest).reverse = e.forest.reverse ++ [p] := List.reverse_cons
  have agrees : Agrees K t ↔ Agrees K e.symbols := by
    unfold Agrees
    rw [same]
  constructor
  · rintro ⟨code, forest, agree⟩
    change sol exec entry K (den exec K fall (p :: e.forest).reverse) e.code at code
    change Solves exec K fall (p :: e.forest).reverse at forest
    rw [parts, den_append] at code
    rw [parts, solves_append] at forest
    exact ⟨⟨code, forest.1, agrees.mp agree⟩, forest.2⟩
  · rintro ⟨⟨code, forest, agree⟩, last⟩
    refine ⟨?_, ?_, agrees.mpr agree⟩
    · change sol exec entry K (den exec K fall (p :: e.forest).reverse) e.code
      rw [parts, den_append]
      exact code
    · change Solves exec K fall (p :: e.forest).reverse
      rw [parts, solves_append]
      exact ⟨forest, last⟩

theorem addRefs_equated (labels : List Nat) (t : Symbols) :
    (labels.foldl Symbols.addRef t).equated = t.equated := by
  induction labels generalizing t with
  | nil => rfl
  | cons l labels ih => exact ih _

theorem sol_labelnode (tidy : Tidy e) (fresh : ¬ Known e lab) :
    Sol exec entry K fall (e.labelnode lab) ↔ Sol exec entry K fall e ∧ K lab = fall := by
  unfold Emit.labelnode
  split
  · rename_i m rest last
    have mem : m ∈ codeLabels e.code ++ labels e.forest := by
      rw [last]
      exact List.mem_append_right _ (List.mem_cons_self ..)
    have unequated : e.symbols.equated.to? lab = none := not_not.mp fun known => fresh (.inr known)
    have other : e.symbols.equated.equal lab m = false := by
      rw [Equated.equal_none (tidy.last m mem), decide_eq_false_iff_not]
      rintro rfl
      exact fresh (.inl mem)
    have at_m : Solves exec K fall e.forest.reverse → K m = fall := by
      rw [last, List.reverse_cons, solves_append]
      exact fun solves => solves.2.1
    constructor
    · rintro ⟨code, forest, agrees⟩
      obtain ⟨agrees, same⟩ := (agrees_equateLab unequated other).mp agrees
      exact ⟨⟨code, forest, agrees⟩, same.trans (at_m forest)⟩
    · rintro ⟨⟨code, forest, agrees⟩, same⟩
      exact ⟨code, forest, (agrees_equateLab unequated other).mpr
        ⟨agrees, same.trans (at_m forest).symm⟩⟩
  · rw [show e.list (.label lab) = { e.list (.label lab) with symbols := e.symbols } from rfl,
      sol_list rfl]
    exact and_congr_right' (and_true _).to_iff

theorem sol_branch (tidy : Tidy e) : Sol exec entry K fall (e.branch lab) ↔
    Sol exec entry K (K lab) e := by
  have tidy' := tidy.walk
  have empty := walk_forest e
  have labels_eq : codeLabels e.walk.code ++ labels e.walk.forest = codeLabels e.walk.code := by
    rw [empty]
    exact List.append_nil _
  let r := absorb lab e.walk.code (e.walk.symbols.addRef lab)
  have absorbed : sol exec entry K (K lab) r.1 ∧ Agrees K r.2 ↔
      sol exec entry K (K lab) e.walk.code ∧ Agrees K (e.walk.symbols.addRef lab) :=
    absorb_iff (fun l mem => tidy'.last l (List.mem_append_left _ mem)) (labels_eq ▸ tidy'.once)
  rw [← Sol.walk_iff (e := e), sol_iff empty]
  refine Iff.trans ?_ absorbed
  unfold Emit.branch
  dsimp only
  split
  · rename_i sealed
    rw [sol_iff (by exact empty)]
    exact and_congr_left' (sol_isSealed sealed)
  · rw [sol_iff (by exact empty)]
    exact and_congr_left' (true_and _).to_iff

theorem dropJumps_equated (lab : Nat) (code : List (Code I)) (t : Symbols) :
    (dropJumps lab code t).2.equated = t.equated := by
  induction code generalizing t with
  | nil => rfl
  | cons c prev ih =>
    cases c with
    | point | label => exact ih t
    | start | gen | switch | head => rfl
    | jump l =>
      unfold dropJumps
      split
      · exact ih _
      · rfl

theorem sol_defineLab : Sol exec entry K fall (e.defineLab lab) ↔ Sol exec entry K fall e ∧
    K lab = fall := by
  have empty := walk_forest e
  rw [← Sol.walk_iff (e := e), sol_iff empty]
  unfold Emit.defineLab
  rw [sol_iff (by exact empty)]
  simp only [sol, Code.nodes, Solves, den, and_true, Agrees, dropJumps_equated]
  constructor
  · rintro ⟨⟨here, code⟩, agrees⟩
    exact ⟨⟨(sol_dropJumps here).mp code, agrees⟩, here⟩
  · rintro ⟨⟨code, agrees⟩, here⟩
    exact ⟨⟨here, (sol_dropJumps here).mpr code⟩, agrees⟩

theorem sol_call (tidy : Tidy e) (c : Call I) (fresh : ∀ l ∈ labels c.nodes, ¬ Known e l) :
    Sol exec entry K fall (c.emit e) ↔ Sol exec entry K (den exec K fall c.nodes) e ∧
      Solves exec K fall c.nodes := by
  cases c with
  | list i labels => exact sol_list (addRefs_equated labels e.symbols)
  | jumpnode lab => exact sol_list rfl
  | labelnode lab =>
    refine (sol_labelnode tidy (fresh lab (List.mem_singleton_self _))).trans ?_
    exact and_congr_right' (and_true _).to_iff.symm
  | walk => exact Sol.walk_iff.trans (and_true _).to_iff.symm
  | point =>
    refine Iff.trans ?_ (and_true _).to_iff.symm
    constructor
    · rintro ⟨code, forest, agrees⟩
      exact ⟨code.2, forest, agrees⟩
    · rintro ⟨code, forest, agrees⟩
      exact ⟨⟨trivial, code⟩, forest, agrees⟩
  | branch lab => exact (sol_branch tidy).trans (and_true _).to_iff.symm
  | defineLab lab =>
    refine sol_defineLab.trans ?_
    exact and_congr_right' (and_true _).to_iff.symm
  | switch table labels =>
    refine Iff.trans ?_ (and_true _).to_iff.symm
    rw [← Sol.walk_iff (e := e), sol_iff (walk_forest e)]
    unfold Call.emit
    rw [sol_iff (by exact walk_forest e)]
    exact and_congr_left' (true_and _).to_iff

end

end LC3Tools.CodeList
