import LC3Tools.Lcc.CodeListPlaces

/-! What holds of the code list while calls write to it, also where `swstmt` takes it apart. -/
namespace LC3Tools.CodeList
open Labels

variable {I : Type}

def nodesTables (ns : List (Node Nat I)) : List Nat := ns.flatMap tables

def codeTables (code : List (Code I)) : List Nat := code.flatMap fun c => nodesTables c.nodes

def codeNodes (code : List (Code I)) : List (Node Nat I) := code.reverse.flatMap Code.nodes

/-- Above the start or the head of a switch statement. -/
inductive Based (base : Code I) : List (Code I) → Prop where
  | bottom : Based base [base]
  | more {code : List (Code I)} (c : Code I) (other : c ≠ .start ∧ c ≠ .head)
    (later : Based base code) :
      Based base (c :: code)

section
variable {S : Type} {exec : Exec I S} {entry : Meaning S} {K K' : Nat → Meaning S}
  {fall : Meaning S}
  {code front : List (Code I)}
  {e : Emit I} {t : Symbols} {lab : Nat} {base : Code I}

theorem codeNodes_cons (c : Code I) (code : List (Code I)) :
    codeNodes (c :: code) = codeNodes code ++ c.nodes := by
  simp [codeNodes]

theorem codeLabels_cons (c : Code I) (code : List (Code I)) :
    codeLabels (c :: code) = labels c.nodes ++ codeLabels code :=
  List.flatMap_cons

theorem codeNodes_labels (code : List (Code I)) :
    (labels (codeNodes code)).Perm (codeLabels code) := by
  induction code with
  | nil => exact .refl _
  | cons c code ih =>
    rw [codeNodes_cons, labels_append, codeLabels_cons]
    exact (ih.append_right _).trans List.perm_append_comm

theorem sol_cons {c : Code I} (other : c ≠ .start ∧ c ≠ .head) :
    sol exec entry K fall (c :: code) ↔ Solves exec K fall c.nodes ∧
      sol exec entry K (den exec K fall c.nodes) code := by
  cases c with
  | start => exact absurd rfl other.1
  | head => exact absurd rfl other.2
  | point | label | gen | jump | switch => rfl

theorem Based.ne_nil (based : Based base code) : code ≠ [] := by
  cases based <;> exact List.cons_ne_nil _ _

theorem Based.absorb (based : Based base code) (bottom : base = .start ∨ base = .head) :
    Based base (absorb lab code t).1 := by
  induction based generalizing t with
  | bottom => rcases bottom with rfl | rfl <;> exact .bottom
  | more c other later ih =>
    cases c with
    | point => exact .more _ other ih
    | start | gen | jump | switch | head => exact .more _ other later
    | label m =>
      unfold CodeList.absorb
      split
      · exact .more _ other later
      · exact ih

theorem Based.dropJumps (based : Based base code) (bottom : base = .start ∨ base = .head) :
    Based base (dropJumps lab code t).1 := by
  induction based generalizing t with
  | bottom => rcases bottom with rfl | rfl <;> exact .bottom
  | more c other later ih =>
    cases c with
    | point | label => exact .more _ other ih
    | start | gen | switch | head => exact .more _ other later
    | jump l =>
      unfold CodeList.dropJumps
      split
      · exact ih
      · exact .more _ other later

theorem Based.walk (based : Based base e.code) : Based base e.walk.code := by
  unfold Emit.walk
  split
  · exact based
  · exact .more _ (by simp) based

theorem Based.call (based : Based base e.code) (bottom : base = .start ∨ base = .head)
    (c : Call I) :
    Based base (c.emit e).code := by
  cases c with
  | list | jumpnode => exact based
  | labelnode lab =>
    unfold Call.emit Emit.labelnode
    dsimp only
    split <;> exact based
  | walk => exact based.walk
  | point => exact .more _ (by simp) based
  | branch lab =>
    unfold Call.emit Emit.branch
    dsimp only
    split
    · exact based.walk.absorb bottom
    · exact .more _ (by simp) (based.walk.absorb bottom)
  | defineLab lab => exact .more _ (by simp) (based.walk.dropJumps bottom)
  | switch table labels => exact .more _ (by simp) based.walk

theorem Based.join (based : Based .head code) (below : Based base front) :
    Based base (code.dropLast ++ front) := by
  induction based with
  | bottom => exact below
  | more c other later ih =>
    rw [List.dropLast_cons_of_ne_nil later.ne_nil]
    exact .more c other ih

theorem sol_join (based : Based .head code) (front : List (Code I)) :
    sol exec entry K fall (code.dropLast ++ front) ↔
    sol exec entry K fall code ∧ sol exec entry K (den exec K fall (codeNodes code)) front := by
  induction based generalizing fall with
  | bottom => exact (true_and _).to_iff.symm
  | more c other later ih =>
    rw [List.dropLast_cons_of_ne_nil later.ne_nil, List.cons_append, sol_cons other, sol_cons other,
      ih, codeNodes_cons,
      den_append, and_assoc]

theorem sol_start (based : Based .start code) : sol exec entry K fall code ↔
    entry = den exec K fall (codeNodes code) ∧ Solves exec K fall (codeNodes code) := by
  induction based generalizing fall with
  | bottom => exact (and_true _).to_iff.symm
  | more c other later ih =>
    rw [sol_cons other, ih, codeNodes_cons, den_append, solves_append]
    tauto

theorem codeUses_join (based : Based .head code) (front : List (Code I)) :
    codeUses (code.dropLast ++ front) = codeUses code ++ codeUses front := by
  induction based with
  | bottom => rfl
  | more c other later ih =>
    rw [List.dropLast_cons_of_ne_nil later.ne_nil, List.cons_append, codeUses_cons, codeUses_cons,
      ih, List.append_assoc]

theorem codeTables_cons (c : Code I) (code : List (Code I)) :
    codeTables (c :: code) = nodesTables c.nodes ++ codeTables code := List.flatMap_cons

theorem codeTables_join (based : Based .head code) (front : List (Code I)) :
    codeTables (code.dropLast ++ front) = codeTables code ++ codeTables front := by
  induction based with
  | bottom => rfl
  | more c other later ih =>
    rw [List.dropLast_cons_of_ne_nil later.ne_nil, List.cons_append, codeTables_cons,
      codeTables_cons, ih,
      List.append_assoc]

theorem codeLabels_join (based : Based .head code) (front : List (Code I)) :
    codeLabels (code.dropLast ++ front) = codeLabels code ++ codeLabels front := by
  induction based with
  | bottom => rfl
  | more c other later ih =>
    rw [List.dropLast_cons_of_ne_nil later.ne_nil, List.cons_append, codeLabels_cons,
      codeLabels_cons, ih,
      List.append_assoc]

theorem targets_iff (ns : List (Node Nat I)) (l : Nat) :
    l ∈ targets ns ↔ l ∈ ns.flatMap uses ∨ l ∈ nodesTables ns := by
  simp only [targets, nodesTables, List.mem_flatMap, mem_targets_iff]
  grind

theorem sol_congr (same : ∀ l ∈ codeUses code, K l = K' l)
    (same' : ∀ l ∈ codeTables code, K l = K' l)
    (same'' : ∀ l ∈ codeLabels code, K l = K' l) : sol exec entry K fall code ↔
      sol exec entry K' fall code := by
  induction code generalizing fall with
  | nil => rfl
  | cons c code ih =>
    rw [codeUses_cons] at same
    rw [codeTables_cons] at same'
    rw [codeLabels_cons] at same''
    have here : ∀ l ∈ targets c.nodes, K l = K' l := by
      intro l mem
      rcases (targets_iff _ l).mp mem with used | tabled
      · exact same l (List.mem_append_left _ used)
      · exact same' l (List.mem_append_left _ tabled)
    have later (G : Meaning S) : sol exec entry K G code ↔ sol exec entry K' G code :=
      ih (fun l mem => same l (List.mem_append_right _ mem))
      (fun l mem => same' l (List.mem_append_right _ mem))
      (fun l mem => same'' l (List.mem_append_right _ mem))
    by_cases other : c ≠ .start ∧ c ≠ .head
    · rw [sol_cons other, sol_cons other, den_congr here, later,
        solves_congr here fun l mem => same'' l (List.mem_append_left _ mem)]
    · cases c with
      | start | head => rfl
      | point | label | gen | jump | switch => exact absurd (by simp) other

theorem absorb_tables (lab : Nat) (code : List (Code I)) (t : Symbols) :
    codeTables (absorb lab code t).1 = codeTables code := by
  induction code generalizing t with
  | nil => rfl
  | cons c prev ih =>
    cases c with
    | point => exact ih t
    | start | gen | jump | switch | head => rfl
    | label m =>
      unfold absorb
      split
      · rfl
      · exact ih _

theorem dropJumps_tables (lab : Nat) (code : List (Code I)) (t : Symbols) :
    codeTables (dropJumps lab code t).1 = codeTables code := by
  induction code generalizing t with
  | nil => rfl
  | cons c prev ih =>
    cases c with
    | point | label => exact ih t
    | start | gen | switch | head => rfl
    | jump l =>
      unfold dropJumps
      split
      · exact ih _
      · rfl

end

/-- The labels of the tables are among these. -/
def Tabled (P : Nat → Prop) (e : Emit I) : Prop :=
  ∀ l ∈ codeTables e.code ++ nodesTables e.forest, P l

section
variable {P : Nat → Prop} {e : Emit I} {lab : Nat}

theorem Tabled.walk (tabled : Tabled P e) : Tabled P e.walk := by
  unfold Emit.walk
  split
  · exact tabled
  · intro l mem
    refine tabled l ?_
    have parts : l ∈ nodesTables e.forest.reverse ++ codeTables e.code ++ nodesTables [] := mem
    simp only [nodesTables, List.mem_append, List.mem_flatMap, List.mem_reverse, List.not_mem_nil,
      false_and,
      exists_false, or_false] at parts ⊢
    exact parts.symm

theorem Tabled.of_same {e' : Emit I} (tabled : Tabled P e)
    (same : codeTables e'.code = codeTables e.code)
    (forest : e'.forest = e.forest) : Tabled P e' := by
  unfold Tabled
  rw [same, forest]
  exact tabled

theorem Tabled.call (tabled : Tabled P e) (c : Call I) (listed : ∀ l ∈ nodesTables c.nodes, P l) :
    Tabled P (c.emit e) := by
  cases c with
  | list | jumpnode | point => exact tabled
  | labelnode lab =>
    unfold Call.emit Emit.labelnode
    dsimp only
    split <;> exact tabled
  | walk => exact tabled.walk
  | branch lab =>
    unfold Call.emit Emit.branch
    dsimp only
    split
    · exact tabled.walk.of_same (absorb_tables ..) rfl
    · exact tabled.walk.of_same (absorb_tables lab e.walk.code (e.walk.symbols.addRef lab)) rfl
  | defineLab lab =>
    exact tabled.walk.of_same (dropJumps_tables lab e.walk.code e.walk.symbols) rfl
  | switch table labels =>
    intro l mem
    have parts : l ∈ (nodesTables [.table table labels] ++ codeTables e.walk.code) ++
      nodesTables e.walk.forest := mem
    rw [List.append_assoc, List.mem_append] at parts
    rcases parts with here | before
    · exact listed l here
    · exact tabled.walk l before

end

/-! What has to hold of the calls. -/

/-- A label that is defined only if it has a reference. -/
def Calls.closed : Calls I → List Nat
  | done => []
  | call _ rest => rest.closed
  | close lab rest => lab :: rest.closed
  | switch body _ rest => body.closed ++ rest.closed

/-- Whether nodes may wait in the forest behind the call. -/
def Call.pending : Call I → Bool → Bool
  | list .., _ | jumpnode _, _ | labelnode _, _ => true
  | point, before => before
  | walk, _ | branch _, _ | defineLab _, _ | switch .., _ => false

def Calls.pending : Calls I → Bool → Bool
  | done, before => before
  | call c rest, before => rest.pending (c.pending before)
  | close _ rest, before => rest.pending before
  | switch _ _ rest, _ => rest.pending false

/-- A jump or a table. -/
def Call.leaves : Call I → Bool
  | branch _ | switch .. => true
  | _ => false

/-- A label that may stay undefined is behind its place no target any more, and never one of a
table. Nothing waits in the forest where the code list is taken apart, and no dispatch goes on into
the body. -/
def Calls.WellFormed (P : Nat → Prop) : Bool → Calls I → Prop
  | _, done => True
  | before, call c rest => (∀ l ∈ nodesTables c.nodes, P l) ∧ rest.WellFormed P (c.pending before)
  | before, close lab rest => ¬ P lab ∧ lab ∉ targets rest.nodes ∧ rest.WellFormed P before
  | before, switch body dispatch rest =>
    before = false ∧ body.pending false = false ∧
      (∃ front last, dispatch = front ++ [last] ∧ last.leaves = true) ∧
    (∀ l ∈ nodesTables (dispatch.flatMap Call.nodes), P l) ∧
    (∀ l ∈ body.closed, l ∉ targets (dispatch.flatMap Call.nodes) ∧ l ∉ targets rest.nodes) ∧
    body.WellFormed P false ∧ rest.WellFormed P false

/-- New labels, each one once. -/
structure Fresh (ls : List Nat) (e : Emit I) : Prop where
  unknown : ∀ l ∈ ls, ¬ Known e l
  once : ls.Nodup

/-- What holds of the list while calls write to it. -/
structure Inv (P : Nat → Prop) (base : Code I) (outer : Nat → Nat) (e : Emit I) : Prop where
  tidy : Tidy e
  based : Based base e.code
  counted : Counted outer e.uses e.symbols
  tabled : Tabled P e

section
variable {P : Nat → Prop} {base : Code I} {outer : Nat → Nat} {e e' : Emit I} {new ls : List Nat}
  {before : Bool}

theorem Inv.call (inv : Inv P base outer e) (bottom : base = .start ∨ base = .head) (c : Call I)
    (listed : ∀ l ∈ nodesTables c.nodes, P l) (fresh : ∀ l ∈ labels c.nodes, ¬ Known e l) :
    Inv P base outer (c.emit e) where
  tidy := (grows_call inv.tidy c fresh).tidy
  based := inv.based.call bottom c
  counted := inv.counted.call c
  tabled := inv.tabled.call c listed

theorem Fresh.grows (fresh : Fresh (new ++ ls) e) (grows : Grows new e e') : Fresh ls e' where
  unknown l mem known := by
    rcases grows.known l known with old | now
    · exact fresh.unknown l (List.mem_append_right _ mem) old
    · exact (List.nodup_append.mp fresh.once).2.2 l now l mem rfl
  once := List.Nodup.of_append_right fresh.once

theorem Fresh.left (fresh : Fresh (new ++ ls) e) : Fresh new e where
  unknown l mem := fresh.unknown l (List.mem_append_left _ mem)
  once := List.Nodup.of_append_left fresh.once

theorem Fresh.right (fresh : Fresh (new ++ ls) e) : Fresh ls e where
  unknown l mem := fresh.unknown l (List.mem_append_right _ mem)
  once := List.Nodup.of_append_right fresh.once

theorem pending_call (before : Bool) (c : Call I) (empty : before = false → e.forest = []) :
    c.pending before = false → (c.emit e).forest = [] := by
  cases c with
  | list | jumpnode | labelnode => rintro ⟨⟩
  | point => exact empty
  | walk | defineLab | switch => exact fun _ => walk_forest e
  | branch lab =>
    intro _
    unfold Call.emit Emit.branch
    dsimp only
    split <;> exact walk_forest e

theorem isSealed_call {c : Call I} (leaves : c.leaves = true) :
    isSealed (c.emit e).code = true := by
  cases c with
  | list | jumpnode | labelnode | walk | point | defineLab => cases leaves
  | switch => rfl
  | branch lab =>
    unfold Call.emit Emit.branch
    dsimp only
    split
    · assumption
    · rfl

/-- The calls of a dispatch. -/
def emits (cs : List (Call I)) (e : Emit I) : Emit I := cs.foldl (fun e c => c.emit e) e

theorem Inv.calls (inv : Inv P base outer e) (bottom : base = .start ∨ base = .head)
    (cs : List (Call I))
    (listed : ∀ l ∈ nodesTables (cs.flatMap Call.nodes), P l)
    (fresh : Fresh (labels (cs.flatMap Call.nodes)) e) :
    Inv P base outer (emits cs e) ∧ Grows (labels (cs.flatMap Call.nodes)) e (emits cs e) := by
  induction cs generalizing e with
  | nil => exact ⟨inv, .refl inv.tidy⟩
  | cons c cs ih =>
    rw [List.flatMap_cons, labels_append] at fresh
    rw [List.flatMap_cons] at listed ⊢
    have listed' : ∀ l ∈ nodesTables c.nodes ++ nodesTables (cs.flatMap Call.nodes), P l := by
      rw [nodesTables, nodesTables, ← List.flatMap_append]
      exact listed
    have grows := grows_call inv.tidy c fresh.left.unknown
    have first := inv.call bottom c (fun l mem => listed' l (List.mem_append_left _ mem))
      fresh.left.unknown
    obtain ⟨last, grows'⟩ :=
      ih first (fun l mem => listed' l (List.mem_append_right _ mem)) (fresh.grows grows)
    exact ⟨last, labels_append (a := c.nodes) ▸ grows.trans grows'⟩

theorem emits_append (cs ds : List (Call I)) (e : Emit I) :
    emits (cs ++ ds) e = emits ds (emits cs e) :=
  List.foldl_append

/-- The head of a switch statement, where the list is taken apart. -/
def Emit.beheaded (e : Emit I) : Emit I := { e with code := [.head] }

/-- The end of a switch statement, where it is put together. -/
def Emit.joined (front tail : Emit I) : Emit I :=
  { front with code := tail.code.dropLast ++ front.code }

theorem Inv.beheaded (inv : Inv P base outer e) (empty : e.forest = []) :
    Inv P .head (fun l => (codeUses e.code).count l + outer l) e.beheaded := by
  have none_left : codeLabels e.beheaded.code ++ labels e.beheaded.forest = [] := by
    change [] ++ labels e.forest = []
    rw [empty]
    rfl
  have uses_eq : e.uses = [] ++ codeUses e.code := by
    unfold Emit.uses
    rw [empty, List.flatMap_nil, List.append_nil, List.nil_append]
  refine ⟨⟨?_, none_left ▸ List.nodup_nil⟩, .bottom, ?_, ?_⟩
  · rw [none_left]
    exact fun l mem => absurd mem List.not_mem_nil
  · have counted := counted_append.mp (uses_eq ▸ inv.counted)
    have here : e.beheaded.uses = [] := by
      change [] ++ e.forest.flatMap uses = []
      rw [empty]
      rfl
    rw [here]
    exact counted
  · intro l mem
    refine inv.tabled l (List.mem_append_right _ ?_)
    have parts : l ∈ [] ++ nodesTables e.forest := mem
    exact parts

theorem known_beheaded {l : Nat} (empty : e.forest = []) : Known e.beheaded l ↔
    e.symbols.equated.to? l ≠ none := by
  have none_left : codeLabels e.beheaded.code ++ labels e.beheaded.forest = [] := by
    change [] ++ labels e.forest = []
    rw [empty]
    rfl
  unfold Known
  rw [none_left]
  exact ⟨fun known => known.resolve_left List.not_mem_nil, .inr⟩

theorem Fresh.beheaded (fresh : Fresh ls e) (empty : e.forest = []) : Fresh ls e.beheaded where
  unknown l mem known := fresh.unknown l mem (.inr ((known_beheaded empty).mp known))
  once := fresh.once

/-- A switch statement up to its end: its body has been written to the tail. -/
structure Body (P : Nat → Prop) (base : Code I) (outer : Nat → Nat) (e : Emit I) (new : List Nat)
    (tail : Emit I) :
    Prop where
  start : Inv P base outer e
  empty : e.forest = []
  fresh : Fresh new e
  inv : Inv P .head (fun l => (codeUses e.code).count l + outer l) tail
  grows : Grows new e.beheaded tail
  flushed : tail.forest = []

/-- Back in front of the switch statement. -/
def Emit.back (e tail : Emit I) : Emit I := { tail with code := e.code }

namespace Body
variable {tail front : Emit I}

theorem labels_front (body : Body P base outer e new tail) :
    codeLabels (e.back tail).code ++ labels (e.back tail).forest = codeLabels e.code := by
  change codeLabels e.code ++ labels tail.forest = codeLabels e.code
  rw [body.flushed]
  exact List.append_nil _

theorem labels_start (body : Body P base outer e new tail) :
    codeLabels e.code ++ labels e.forest = codeLabels e.code := by
  rw [body.empty]
  exact List.append_nil _

theorem unequated (body : Body P base outer e new tail) {l : Nat} (mem : l ∈ codeLabels e.code) :
    tail.symbols.equated.to? l = none := by
  by_contra known
  have here : l ∈ codeLabels e.code ++ labels e.forest := List.mem_append_left _ mem
  rcases body.grows.known l (.inr known) with old | now
  · exact (known_beheaded body.empty).mp old (body.start.tidy.last l here)
  · exact body.fresh.unknown l now (.inl here)

theorem known_back (body : Body P base outer e new tail) {l : Nat} (known : Known (e.back tail) l) :
    Known e l ∨ l ∈ new := by
  unfold Known at known
  rw [body.labels_front] at known
  rcases known with mem | next
  · exact .inl (.inl (List.mem_append_left _ mem))
  · exact (body.grows.known l (.inr next)).imp_left fun old => .inr
      ((known_beheaded body.empty).mp old)

theorem mem_new (body : Body P base outer e new tail) {l : Nat} (mem : l ∈ codeLabels tail.code) :
    l ∈ new := by
  have here : l ∈ codeLabels tail.code ++ labels tail.forest := List.mem_append_left _ mem
  refine (body.grows.known l (.inl here)).resolve_left fun old => ?_
  obtain ⟨l', next⟩ := Option.ne_none_iff_exists'.mp ((known_beheaded body.empty).mp old)
  have still := body.grows.kept l l' next
  cases (body.inv.tidy.last l here).symm.trans still

theorem uses_tail (body : Body P base outer e new tail) : tail.uses = codeUses tail.code := by
  unfold Emit.uses
  rw [body.flushed, List.flatMap_nil, List.append_nil]

theorem inv_back (body : Body P base outer e new tail) :
    Inv P base (fun l => (codeUses tail.code).count l + outer l) (e.back tail) := by
  refine ⟨⟨?_, ?_⟩, body.start.based, ?_, ?_⟩
  · rw [body.labels_front]
    exact fun l mem => body.unequated mem
  · rw [body.labels_front, ← body.labels_start]
    exact body.start.tidy.once
  · have counted : Counted outer (codeUses tail.code ++ codeUses e.code) tail.symbols :=
      counted_append.mpr (body.uses_tail ▸ body.inv.counted)
    have here : (e.back tail).uses = codeUses e.code := by
      change codeUses e.code ++ tail.forest.flatMap uses = _
      rw [body.flushed, List.flatMap_nil, List.append_nil]
    rw [here]
    exact counted_append.mp (counted.perm List.perm_append_comm)
  · intro l mem
    have parts : l ∈ codeTables e.code ++ nodesTables tail.forest := mem
    rw [body.flushed, nodesTables, List.flatMap_nil, List.append_nil] at parts
    exact body.start.tabled l (List.mem_append_left _ parts)

theorem joined (body : Body P base outer e new tail) {labs : List Nat}
    (fresh : Fresh (labs ++ new) e)
    (dispatch : Inv P base (fun l => (codeUses tail.code).count l + outer l) front)
    (grows : Grows labs (e.back tail) front) (flushed : front.forest = []) :
    Inv P base outer (front.joined tail) ∧ Grows (labs ++ new) e (front.joined tail) := by
  have parts : codeLabels (front.joined tail).code ++ labels (front.joined tail).forest =
      codeLabels tail.code ++ codeLabels front.code := by
    change codeLabels (tail.code.dropLast ++ front.code) ++ labels front.forest = _
    rw [flushed, codeLabels_join body.inv.based]
    exact List.append_nil _
  have apart {l : Nat} (mem : l ∈ codeLabels tail.code) : ¬ Known front l := by
    intro known
    have inside := body.mem_new mem
    rcases grows.known l known with before | now
    · unfold Known at before
      rw [body.labels_front] at before
      rcases before with old | next
      · exact body.fresh.unknown l inside (.inl (List.mem_append_left _ old))
      · exact next (body.inv.tidy.last l (List.mem_append_left _ mem))
    · exact (List.nodup_append.mp fresh.once).2.2 l now l inside rfl
  have tidy : Tidy (front.joined tail) := by
    refine ⟨?_, ?_⟩ <;> rw [parts]
    · intro l mem
      rcases List.mem_append.mp mem with there | here
      · exact not_not.mp fun next => apart there (.inr next)
      · exact dispatch.tidy.last l (List.mem_append_left _ here)
    · refine List.nodup_append.mpr ⟨(List.nodup_append.mp body.inv.tidy.once).1,
        (List.nodup_append.mp dispatch.tidy.once).1, ?_⟩
      rintro l there m here rfl
      exact apart there (.inl (List.mem_append_left _ here))
  refine ⟨⟨tidy, body.inv.based.join dispatch.based, ?_, ?_⟩, tidy, ?_, ?_⟩
  · have here : (front.joined tail).uses = codeUses tail.code ++ codeUses front.code := by
      change codeUses (tail.code.dropLast ++ front.code) ++ front.forest.flatMap uses = _
      rw [flushed, codeUses_join body.inv.based]
      exact List.append_nil _
    have there : front.uses = codeUses front.code := by
      unfold Emit.uses
      rw [flushed, List.flatMap_nil, List.append_nil]
    rw [here]
    exact (counted_append.mpr (there ▸ dispatch.counted)).perm List.perm_append_comm
  · intro l mem
    have all : l ∈ codeTables (tail.code.dropLast ++ front.code) ++ nodesTables front.forest := mem
    rw [codeTables_join body.inv.based, List.append_assoc, List.mem_append] at all
    rcases all with there | here
    · exact body.inv.tabled l (List.mem_append_left _ there)
    · exact dispatch.tabled l here
  · intro l known
    unfold Known at known
    rw [parts, List.mem_append] at known
    have of_front (known : Known front l) : Known e l ∨ l ∈ labs ++ new := by
      rcases grows.known l known with before | now
      · exact (body.known_back before).imp_right (List.mem_append_right _)
      · exact .inr (List.mem_append_left _ now)
    rcases known with (there | here) | next
    · exact .inr (List.mem_append_right _ (body.mem_new there))
    · exact of_front (.inl (List.mem_append_left _ here))
    · exact of_front (.inr next)
  · intro l l' next
    exact grows.kept l l' (body.grows.kept l l' next)

end Body

theorem Body.fresh_back {tail : Emit I} (body : Body P base outer e new tail) {labs : List Nat}
    (fresh : Fresh (labs ++ new) e) : Fresh labs (e.back tail) where
  unknown l mem known := by
    rcases body.known_back known with old | now
    · exact fresh.unknown l (List.mem_append_left _ mem) old
    · exact (List.nodup_append.mp fresh.once).2.2 l mem l now rfl
  once := List.Nodup.of_append_left fresh.once

/-- A switch statement with its dispatch. -/
structure Dispatch (P : Nat → Prop) (base : Code I) (outer : Nat → Nat) (e : Emit I)
    (labs new rest : List Nat)
    (tail front : Emit I) : Prop where
  written : Body P base outer e new tail
  fresh : Fresh labs (e.back tail)
  flushed : front.forest = []
  sealed : isSealed front.code = true
  inv : Inv P base outer (front.joined tail)
  grows : Grows (labs ++ new) e (front.joined tail)
  later : Fresh rest (front.joined tail)

theorem Body.dispatch {tail : Emit I} (body : Body P base outer e new tail)
    (bottom : base = .start ∨ base = .head)
    {cs : List (Call I)} {last : Call I} (leaves : last.leaves = true)
    (listed : ∀ l ∈ nodesTables ((cs ++ [last]).flatMap Call.nodes), P l)
    (fresh : Fresh (labels ((cs ++ [last]).flatMap Call.nodes) ++ new ++ ls) e) :
    Dispatch P base outer e (labels ((cs ++ [last]).flatMap Call.nodes)) new ls tail
      (emits (cs ++ [last]) (e.back tail)) := by
  obtain ⟨front_inv, front_grows⟩ :=
    body.inv_back.calls bottom (cs ++ [last]) listed (body.fresh_back fresh.left)
  have flushed : (emits (cs ++ [last]) (e.back tail)).forest = [] := by
    rw [emits_append]
    refine pending_call true last (fun never => nomatch never) ?_
    cases last with
    | branch | switch => rfl
    | list | jumpnode | labelnode | walk | point | defineLab => cases leaves
  have sealed : isSealed (emits (cs ++ [last]) (e.back tail)).code = true := by
    rw [emits_append]
    exact isSealed_call leaves
  obtain ⟨joined_inv, joined_grows⟩ := body.joined fresh.left front_inv front_grows flushed
  exact ⟨body, body.fresh_back fresh.left, flushed, sealed, joined_inv, joined_grows,
    fresh.grows joined_grows⟩

theorem Inv.emit (cs : Calls I) (formed : cs.WellFormed P before) (inv : Inv P base outer e)
    (bottom : base = .start ∨ base = .head) (empty : before = false → e.forest = [])
    (fresh : Fresh (labels cs.nodes) e) :
    Inv P base outer (cs.emit e) ∧ Grows (labels cs.nodes) e (cs.emit e) ∧
    (cs.pending before = false → (cs.emit e).forest = []) := by
  induction cs generalizing e before base outer with
  | done => exact ⟨inv, .refl inv.tidy, empty⟩
  | call c rest ih =>
    have fresh' : Fresh (labels c.nodes ++ labels rest.nodes) e :=
      labels_append (a := c.nodes) ▸ fresh
    have grows := grows_call inv.tidy c fresh'.left.unknown
    obtain ⟨last, grows', flushed⟩ :=
      ih formed.2 (inv.call bottom c formed.1 fresh'.left.unknown) bottom
      (pending_call before c empty) (fresh'.grows grows)
    exact ⟨last, labels_append (a := c.nodes) ▸ grows.trans grows', flushed⟩
  | close lab rest ih =>
    have fresh' : Fresh ([lab] ++ labels rest.nodes) e := fresh
    have known : ¬ Known e lab := fresh'.left.unknown lab (List.mem_singleton_self _)
    unfold Calls.emit
    by_cases used : e.symbols.ref lab ≠ 0
    · rw [if_pos used]
      have grows := grows_defineLab inv.tidy known
      have defined : Inv P base outer (e.defineLab lab) :=
        inv.call bottom (.defineLab lab)
          (fun l mem => absurd mem List.not_mem_nil) fresh'.left.unknown
      obtain ⟨last, grows', flushed⟩ :=
        ih formed.2.2 defined bottom (fun _ => walk_forest e) (fresh'.grows grows)
      exact ⟨last, grows.trans grows', flushed⟩
    · rw [if_neg used]
      obtain ⟨last, grows, flushed⟩ := ih formed.2.2 inv bottom empty fresh'.right
      have grows' : Grows ([lab] ++ labels rest.nodes) e (rest.emit e) :=
        ⟨grows.tidy, fun l known => (grows.known l known).imp_right (List.mem_append_right [lab]),
          grows.kept⟩
      exact ⟨last, grows', flushed⟩
  | switch body dispatch rest ihBody ihRest =>
    obtain ⟨none_waits, body_flushes, ⟨front, last, rfl, leaves⟩, listed, -, body_formed,
      rest_formed⟩ := formed
    have start_empty := empty none_waits
    have parts : labels (Calls.switch body (front ++ [last]) rest).nodes =
        (labels ((front ++ [last]).flatMap Call.nodes) ++ labels body.nodes) ++
          labels rest.nodes := by
      simp only [Calls.nodes, labels_append, List.append_assoc]
    rw [parts] at fresh ⊢
    have fresh_body := fresh.left.right
    obtain ⟨tail_inv, tail_grows, tail_flushed⟩ :=
      ihBody body_formed (inv.beheaded start_empty) (.inr rfl)
      (fun _ => start_empty) (fresh_body.beheaded start_empty)
    have written : Body P base outer e (labels body.nodes) (body.emit e.beheaded) :=
      ⟨inv, start_empty, fresh_body, tail_inv, tail_grows, tail_flushed body_flushes⟩
    have dispatch := written.dispatch bottom leaves listed fresh
    obtain ⟨end_inv, end_grows, flushed⟩ :=
      ihRest rest_formed dispatch.inv bottom (fun _ => dispatch.flushed)
      dispatch.later
    exact ⟨end_inv, dispatch.grows.trans end_grows, flushed⟩

theorem Inv.dispatch {body rest : Calls I} {calls : List (Call I)}
    (formed : (Calls.switch body calls rest).WellFormed P before) (inv : Inv P base outer e)
    (bottom : base = .start ∨ base = .head) (empty : before = false → e.forest = [])
    (fresh : Fresh (labels (Calls.switch body calls rest).nodes) e) :
    Dispatch P base outer e (labels (calls.flatMap Call.nodes)) (labels body.nodes)
      (labels rest.nodes)
      (body.emit e.beheaded) (emits calls (e.back (body.emit e.beheaded))) := by
  obtain ⟨none_waits, body_flushes, ⟨front, last, rfl, leaves⟩, listed, -, body_formed, -⟩ := formed
  have start_empty := empty none_waits
  have parts : labels (Calls.switch body (front ++ [last]) rest).nodes =
      (labels ((front ++ [last]).flatMap Call.nodes) ++ labels body.nodes) ++
        labels rest.nodes := by
    simp only [Calls.nodes, labels_append, List.append_assoc]
  rw [parts] at fresh
  obtain ⟨tail_inv, tail_grows, tail_flushed⟩ :=
    inv.beheaded start_empty |>.emit body body_formed (.inr rfl)
    (fun _ => start_empty) (fresh.left.right.beheaded start_empty)
  have written : Body P base outer e (labels body.nodes) (body.emit e.beheaded) :=
    ⟨inv, start_empty, fresh.left.right, tail_inv, tail_grows, tail_flushed body_flushes⟩
  exact written.dispatch bottom leaves listed fresh

end

end LC3Tools.CodeList
