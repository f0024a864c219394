import LC3Tools.Lcc.Macros

/-! Rules for labelled code: a piece inside a larger one, pieces behind each other, a
branch over a piece, and loops. -/
namespace LC3Tools.Emit
open StateTransition

/-- Every branch goes to a label of the code. -/
def Closed (code : List Line) : Prop :=
  ∀ n z p i, Line.br n z p i ∈ code → Line.lab i ∈ code

section
variable {globals : String → Word} {m m' : Machine} {before core behind : List Line}

theorem getElem_embed {k : Nat} {line : Line} (there : core[k]? = some line) :
    (before ++ core ++ behind)[before.length + k]? = some line := by
  have inside : k < core.length := (List.getElem?_eq_some_iff.mp there).1
  rw [List.append_assoc, List.getElem?_append_right (Nat.le_add_right _ _), Nat.add_sub_cancel_left,
    List.getElem?_append_left inside, there]

theorem near_embed {k k' : Nat} {offset : Int} (found : near k offset = some k') (n : Nat) :
    near (n + k) offset = some (n + k') := by
  unfold near at found ⊢
  split at found
  · rename_i inside
    cases found
    rw [if_pos (by omega)]
    congr 1
    omega
  · cases found

theorem target_embed {i : Nat} (behind : List Line) (free : ∀ i, .lab i ∈ core → .lab i ∉ before)
    (inside : .lab i ∈ core) : ∃ k, target core i = .line k ∧
      target (before ++ core ++ behind) i = .line (before.length + k) := by
  obtain ⟨k, found⟩ := Option.isSome_iff_exists.mp (List.isSome_idxOf?.mpr inside)
  have absent : before.idxOf? (.lab i) = none := List.idxOf?_eq_none_iff.mpr (free i inside)
  have whole : (before ++ core ++ behind).idxOf? (.lab i) = some (before.length + k) := by
    unfold List.idxOf? at found absent ⊢
    rw [List.append_assoc, List.findIdx?_append, absent, List.findIdx?_append, found]
    simp [Nat.add_comm]
  exact ⟨k, by rw [target, found], by rw [target, whole]⟩

theorem step_embed (closed : Closed core) (free : ∀ i, .lab i ∈ core → .lab i ∉ before) {k k' : Nat}
    (stepped : step globals core (.line k, m) = some (.line k', m')) :
    step globals (before ++ core ++ behind) (.line (before.length + k), m) =
      some (.line (before.length + k'), m') := by
  simp only [step] at stepped ⊢
  obtain ⟨line, there, rest⟩ := Option.bind_eq_some_iff.mp stepped
  rw [getElem_embed there, Option.bind_some]
  cases line with
  | br n z p i =>
    obtain ⟨j, inner, outer⟩ := target_embed behind free
      (closed n z p i (List.mem_of_getElem? there))
    simp only [inner, outer] at rest ⊢
    split at rest <;> rename_i taken <;> cases rest <;> simp [taken, Nat.add_assoc]
  | skip offset =>
    obtain ⟨j, found, rest⟩ := Option.map_eq_some_iff.mp rest
    cases rest
    simp only [near_embed found, Option.map_some]
  | ld i offset =>
    obtain ⟨j, found, rest⟩ := Option.bind_eq_some_iff.mp rest
    simp only [near_embed found, Option.bind_some]
    split at rest
    · rename_i v value
      cases rest
      simp only [getElem_embed value]
      rfl
    · cases rest
  | fill | jmp | jsrr => cases rest
  | _ =>
    cases rest
    rfl

theorem Executes.embed (executes : Executes globals core m m') (before behind : List Line)
    (closed : Closed core) (free : ∀ i, .lab i ∈ core → .lab i ∉ before) :
    Reaches (step globals (before ++ core ++ behind)) (.line before.length, m)
      (.line (before.length + core.length), m') := by
  have inner : Reaches (step globals core) (.line 0, m) (.line core.length, m') :=
    (mem_eval.mp executes).1
  suffices every : ∀ c, Reaches (step globals core) c (.line core.length, m') →
    ∀ k n, c = (.line k, n) →
      Reaches (step globals (before ++ core ++ behind)) (.line (before.length + k), n)
        (.line (before.length + core.length), m') from every _ inner 0 m rfl
  intro c reaches
  induction reaches using Relation.ReflTransGen.head_induction_on with
  | refl =>
    rintro k n same
    cases same
    exact .refl
  | head stepped later ih =>
    rename_i c d
    rintro k n rfl
    obtain ⟨place, t⟩ := d
    cases place with
    | line j => exact .head (step_embed closed free stepped) (ih j t rfl)
    | label i =>
      rcases later.cases_head with same | ⟨e, next, -⟩
      · cases same
      · cases next
    | address a =>
      rcases later.cases_head with same | ⟨e, next, -⟩
      · cases same
      · cases next

theorem Executes.wrap (executes : Executes globals core (run globals before m) m')
    (closed : Closed core) (lead : before.all Line.plain) (trail : behind.all Line.plain) :
    Executes globals (before ++ core ++ behind) m (run globals behind m') := by
  have free : ∀ i, .lab i ∈ core → .lab i ∉ before := fun i _ => no_label lead i
  have first : Reaches (step globals (before ++ core ++ behind)) (.line 0, m)
      (.line (0 + before.length), run globals before m) :=
    reaches_piece 0 before ⟨core ++ behind, by simp⟩ (all_straight lead)
  have last : Reaches (step globals (before ++ core ++ behind)) (.line (before ++ core).length, m')
      (.line ((before ++ core).length + behind.length), run globals behind m') :=
    reaches_piece _ behind ⟨[], by simp⟩ (all_straight trail)
  rw [Nat.zero_add] at first
  rw [List.length_append] at last
  refine executes_of_reaches ((first.trans (executes.embed before behind closed free)).trans ?_)
  rw [List.length_append, List.length_append]
  exact last

theorem executes_nil : Executes globals [] m m := executes_straight rfl

end

/-! Pieces behind each other, and branches between them. -/

/-- No label of the one piece stands in the other. -/
def Apart (before core : List Line) : Prop :=
  ∀ i, .lab i ∈ core → .lab i ∉ before

section
variable {globals : String → Word} {m t m' : Machine} {c d : List Line}

theorem closed_of_plain {code : List Line} (plain : code.all Line.plain) : Closed code :=
  fun _ _ _ _ mem => by cases List.all_eq_true.mp plain _ mem

theorem apart_of_plain (plain : c.all Line.plain) (d : List Line) : Apart c d :=
  fun i _ => no_label plain i

theorem Closed.append (first : Closed c) (second : Closed d) : Closed (c ++ d) := by
  intro n z p i mem
  rw [List.mem_append] at mem ⊢
  exact mem.imp (first n z p i) (second n z p i)

theorem Executes.seq (first : Executes globals c m t) (second : Executes globals d t m')
    (closed : Closed c) (closed' : Closed d) (apart : Apart c d) :
      Executes globals (c ++ d) m m' := by
  have start := first.embed [] d closed (fun i _ => List.not_mem_nil)
  have rest := second.embed c [] closed' apart
  rw [List.nil_append, List.length_nil, Nat.zero_add] at start
  rw [List.append_nil, ← List.length_append] at rest
  exact executes_of_reaches (start.trans rest)

theorem Executes.fall {n z p : Bool} {i : Nat} (stay : m.takes n z p = false)
    (executes : Executes globals c m m') (closed : Closed c) :
    Executes globals (.br n z p i :: c) m m' := by
  have rest := executes.embed [.br n z p i] [] closed
    (fun j _ mem => by cases List.mem_singleton.mp mem)
  rw [List.append_nil, ← List.length_append, List.singleton_append] at rest
  refine executes_of_reaches (.head (step_br rfl) ?_)
  rw [stay]
  exact rest

theorem Executes.jump {n z p : Bool} {i : Nat} (leave : m.takes n z p = true)
    (executes : Executes globals (.lab i :: d) m m') (closed : Closed (.lab i :: d))
    (apart : Apart c (.lab i :: d)) :
      Executes globals (.br n z p i :: (c ++ .lab i :: d)) m m' := by
  have free : Apart (.br n z p i :: c) (.lab i :: d) := by
    intro j inside mem
    rcases List.mem_cons.mp mem with same | mem
    · cases same
    · exact apart j inside mem
  have rest := executes.embed (.br n z p i :: c) [] closed free
  have found := target_first (.br n z p i :: c) d (free i List.mem_cons_self)
  rw [List.append_nil, ← List.length_append, List.cons_append] at rest
  rw [List.cons_append] at found
  refine executes_of_reaches (.head (step_br rfl) ?_)
  rw [leave, if_pos rfl, found]
  exact rest

theorem closed_label (i : Nat) : Closed [.lab i] :=
  fun _ _ _ _ mem => by cases List.mem_singleton.mp mem

theorem Executes.label {i : Nat} (executes : Executes globals d m m') (closed : Closed d)
    (fresh : .lab i ∉ d) : Executes globals (.lab i :: d) m m' :=
  Executes.seq (c := [.lab i]) (executes_straight rfl) executes
    (closed_label i) closed
    (fun j inside mem => by
      cases List.mem_singleton.mp mem
      exact fresh inside)

theorem Executes.after (lead : c.all Line.plain)
    (executes : Executes globals d (run globals c m) m')
    (closed : Closed d) : Executes globals (c ++ d) m m' :=
  Executes.seq (executes_straight (all_straight lead)) executes (closed_of_plain lead) closed
    (apart_of_plain lead d)

theorem Executes.before (executes : Executes globals c m t) (closed : Closed c)
    (trail : d.all Line.plain) :
    Executes globals (c ++ d) m (run globals d t) :=
  Executes.seq executes (executes_straight (all_straight trail)) closed (closed_of_plain trail)
    (fun i mem => absurd mem (no_label trail i))

/-- A piece that is left out if the branch before it is taken. -/
def skipIf (n z p : Bool) (i : Nat) (body : List Line) : List Line :=
  .br n z p i :: (body ++ [.lab i])

theorem closed_skipIf {n z p : Bool} {i : Nat} (closed : Closed c) : Closed (skipIf n z p i c) := by
  intro n' z' p' j mem
  simp only [skipIf, List.mem_cons, List.mem_append, List.not_mem_nil, or_false, reduceCtorEq,
    false_or] at mem ⊢
  rcases mem with same | mem
  · cases same
    exact .inr rfl
  · exact .inl (closed n' z' p' j mem)

theorem Executes.skipIf {n z p : Bool} {i : Nat} (closed : Closed c) (fresh : .lab i ∉ c)
    (entered : m.takes n z p = false → Executes globals c m m')
    (skipped : m.takes n z p = true → m' = m) : Executes globals (skipIf n z p i c) m m' := by
  have apart : Apart c [.lab i] := fun j inside mem => by
    cases List.mem_singleton.mp inside
    exact fresh mem
  cases taken : m.takes n z p with
  | true =>
    rw [skipped taken]
    exact Executes.jump taken (executes_straight rfl) (closed_label i) apart
  | false =>
    have whole := Executes.seq (entered taken) (executes_straight rfl) closed (closed_label i) apart
    exact Executes.fall taken whole (closed.append (closed_label i))

/-- A piece that is repeated while the branch behind it is taken. -/
def loop (i : Nat) (body : List Line) (n z p : Bool) : List Line :=
  .lab i :: (body ++ [.br n z p i])

theorem closed_loop {i : Nat} {n z p : Bool} (closed : Closed c) : Closed (loop i c n z p) := by
  intro n' z' p' j mem
  simp only [loop, List.mem_cons, List.mem_append, List.not_mem_nil, or_false, reduceCtorEq,
    false_or] at mem ⊢
  rcases mem with mem | same
  · exact .inr (closed n' z' p' j mem)
  · cases same
    exact .inl rfl

theorem loop_round {i : Nat} {n z p : Bool} (body : Executes globals c m t) (closed : Closed c)
    (fresh : .lab i ∉ c) : Reaches (step globals (loop i c n z p)) (.line 0, m)
      (if t.takes n z p then .line 0 else .line (loop i c n z p).length, t) := by
  have inner : Reaches (step globals (loop i c n z p)) (.line 1, m) (.line (1 + c.length), t) :=
    body.embed [.lab i] [.br n z p i] closed fun j inside mem => by
      cases List.mem_singleton.mp mem
      exact fresh inside
  have first : Reaches (step globals (loop i c n z p)) (.line 0, m) (.line 1, m) :=
    reaches_piece 0 [.lab i] ⟨c ++ [.br n z p i], rfl⟩ rfl
  have there : (loop i c n z p)[1 + c.length]? = some (.br n z p i) := by
    rw [Nat.add_comm 1]
    simp [loop]
  have back : target (loop i c n z p) i = .line 0 := target_first [] _ List.not_mem_nil
  have behind : 1 + c.length + 1 = (loop i c n z p).length := by
    simp only [loop, List.length_cons, List.length_append, List.length_nil]
    omega
  have last : Reaches (step globals (loop i c n z p)) (.line (1 + c.length), t)
      (if t.takes n z p then target (loop i c n z p) i else .line (1 + c.length + 1), t) :=
    reaches_br there
  rw [back, behind] at last
  exact (first.trans inner).trans last

theorem loop_again {i : Nat} {n z p : Bool} (body : Executes globals c m t) (closed : Closed c)
    (fresh : .lab i ∉ c) (taken : t.takes n z p = true)
    (rest : Executes globals (loop i c n z p) t m') : Executes globals (loop i c n z p) m m' := by
  have round := loop_round (n := n) (z := z) (p := p) body closed fresh
  rw [taken, if_pos rfl] at round
  exact executes_of_reaches (round.trans (mem_eval.mp rest).1)

theorem loop_leave {i : Nat} {n z p : Bool} (body : Executes globals c m t) (closed : Closed c)
    (fresh : .lab i ∉ c) (taken : t.takes n z p = false) :
    Executes globals (loop i c n z p) m t := by
  have round := loop_round (n := n) (z := z) (p := p) body closed fresh
  rw [taken, if_neg Bool.false_ne_true] at round
  exact executes_of_reaches round

variable (globals) in
theorem loop_countdown {i : Nat} {r : Fin 8} (body : List Line) (plain : body.all Line.plain)
    (I : Nat → Machine → Prop) (counts : ∀ j s, I j s → s.reg r = BitVec.ofNat 16 j)
    (pass : ∀ j s, I (j + 1) s → I j (run globals (body ++ [.addimm r r (-1)]) s)) (k : Nat)
    (small : k < 2 ^ 16) (start : I (k + 1) m) :
    ∃ m', Executes globals (loop i (body ++ [.addimm r r (-1)]) true false true) m m' ∧ I 0 m' := by
  have all : (body ++ [Line.addimm r r (-1)]).all Line.plain := by
    rw [List.all_append, plain]
    rfl
  have once (s : Machine) : Executes globals (body ++ [.addimm r r (-1)]) s _ :=
    executes_straight (all_straight all)
  have tested (s : Machine) : (run globals (body ++ [.addimm r r (-1)]) s).last =
      (run globals (body ++ [.addimm r r (-1)]) s).reg r := by
    rw [run_append]
    simp only [run_cons, run_nil, Line.effect, Machine.set_last, Machine.set_same]
  induction k generalizing m with
  | zero =>
    have final := pass 0 m start
    refine ⟨_, loop_leave (once m) (closed_of_plain all) (no_label all i) ?_, final⟩
    rw [Machine.takes, tested, counts 0 _ final]
    rfl
  | succ k ih =>
    have next := pass (k + 1) m start
    obtain ⟨m', executes, final⟩ := ih (by omega) next
    refine ⟨m', loop_again (once m) (closed_of_plain all) (no_label all i) ?_ executes, final⟩
    rw [Machine.takes, tested, counts (k + 1) _ next, if_neg, ite_self]
    intro none
    have zero := congrArg BitVec.toNat none
    rw [BitVec.toNat_ofNat, Nat.mod_eq_of_lt small] at zero
    cases zero

/-- A loop that is left by a branch in the middle. -/
def loopUntil (i j : Nat) (test : List Line) (n z p : Bool) (body : List Line) : List Line :=
  .lab i :: (test ++ .br n z p j :: (body ++ [.br true true true i, .lab j]))

theorem loopUntil_test {i j : Nat} {n z p : Bool} (lead : c.all Line.plain) :
    Reaches (step globals (loopUntil i j c n z p d)) (.line 0, m)
      (.line (1 + c.length), run globals c m) := by
  have first : Reaches (step globals (loopUntil i j c n z p d)) (.line 0, m) (.line 1, m) :=
    reaches_piece 0 [.lab i] ⟨_, rfl⟩ rfl
  exact first.trans (reaches_piece 1 c ⟨_, rfl⟩ (all_straight lead))

theorem loopUntil_branch {i j : Nat} {n z p : Bool} :
    (loopUntil i j c n z p d)[1 + c.length]? = some (.br n z p j) := by
  rw [Nat.add_comm 1]
  simp [loopUntil]

theorem loopUntil_leave {i j : Nat} {n z p : Bool} (lead : c.all Line.plain)
    (rest : d.all Line.plain)
    (different : i ≠ j) (taken : (run globals c m).takes n z p = true) :
    Executes globals (loopUntil i j c n z p d) m (run globals c m) := by
  have shape : loopUntil i j c n z p d =
      (.lab i :: (c ++ .br n z p j :: (d ++ [.br true true true i]))) ++ .lab j :: [] := by
    simp [loopUntil]
  have fresh : .lab j ∉ .lab i :: (c ++ .br n z p j :: (d ++ [.br true true true i])) := by
    simp [no_label lead j, no_label rest j, different.symm]
  have found := target_first _ [] fresh
  rw [← shape] at found
  have branch : Reaches (step globals (loopUntil i j c n z p d))
    (.line (1 + c.length), run globals c m) _ :=
    reaches_br loopUntil_branch
  rw [taken, if_pos rfl, found] at branch
  have last : Reaches (step globals (loopUntil i j c n z p d)) (_, run globals c m) _ :=
    reaches_piece _ [.lab j] ⟨[], by rw [shape, List.drop_left, List.append_nil]⟩ rfl
  have size := congrArg List.length shape
  rw [List.length_append, List.length_singleton] at size
  rw [List.length_singleton, ← size] at last
  exact executes_of_reaches (((loopUntil_test lead).trans branch).trans last)

theorem loopUntil_again {i j : Nat} {n z p : Bool} (lead : c.all Line.plain)
    (rest : d.all Line.plain)
    (taken : (run globals c m).takes n z p = false)
    (executes : Executes globals (loopUntil i j c n z p d) (run globals d (run globals c m)) m') :
    Executes globals (loopUntil i j c n z p d) m m' := by
  have branch : Reaches (step globals (loopUntil i j c n z p d))
    (.line (1 + c.length), run globals c m) _ :=
    reaches_br loopUntil_branch
  rw [taken, if_neg Bool.false_ne_true] at branch
  have shape : loopUntil i j c n z p d = (.lab i :: (c ++ [.br n z p j])) ++
    (d ++ [.br true true true i, .lab j]) := by
    simp [loopUntil]
  have size : (Line.lab i :: (c ++ [.br n z p j])).length = 1 + c.length + 1 := by
    simp [Nat.add_comm]
  have body : Reaches (step globals (loopUntil i j c n z p d))
    (.line (1 + c.length + 1), run globals c m) _ :=
    reaches_piece _ d ⟨[.br true true true i, .lab j], by rw [shape, ← size, List.drop_left]⟩
      (all_straight rest)
  have there : (loopUntil i j c n z p d)[1 + c.length + 1 + d.length]? = some
    (.br true true true i) := by
    rw [shape, ← size, getElem_behind]
    simp
  have back : target (loopUntil i j c n z p d) i = .line 0 := target_first [] _ List.not_mem_nil
  have again : Reaches (step globals (loopUntil i j c n z p d))
      (.line (1 + c.length + 1 + d.length), run globals d (run globals c m)) _ := reaches_br there
  rw [takes_always, if_pos rfl, back] at again
  exact executes_of_reaches (((((loopUntil_test lead).trans branch).trans body).trans again).trans
    (mem_eval.mp executes).1)

end

end LC3Tools.Emit
