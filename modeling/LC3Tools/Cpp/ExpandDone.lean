import LC3Tools.Cpp.ExpandEnds

/-! What is left of macros in a row that has been expanded. -/
namespace LC3Tools.Cpp

/-- No hideset is lost, and no error is forgotten. -/
structure Since (st later : Globals) : Prop where
  hidesets : st.hidesets <+: later.hidesets
  nerrs : st.nerrs = true → later.nerrs = true

section
variable {st later now : Globals} {env : Env} {hidesets : Hidesets}
  {run : List Token → Globals → Except Stop (List Token × Globals)}

theorem Since.refl : Since st st := ⟨List.prefix_refl _, id⟩

theorem Since.trans (first : Since st later) (second : Since later now) : Since st now :=
  ⟨first.hidesets.trans second.hidesets, fun failed => second.nerrs (first.nerrs failed)⟩

theorem Since.error (since : Since st later) : Since st later.error :=
  ⟨since.hidesets, fun _ => rfl⟩

theorem Since.hiding (since : Since st later) (extends_ : later.hidesets <+: hidesets) :
    Since st { later with hidesets } :=
  ⟨since.hidesets.trans extends_, since.nerrs⟩

theorem prefix_unionhideset {hs hs' : Nat} : hidesets <+: (unionhideset hidesets hs hs').1 := by
  unfold unionhideset
  have run (nps : List Nat) (now : Hidesets) (n : Nat) :
    now <+: (nps.foldl (fun s np => newhideset s.1 s.2 np) (now, n)).1 := by
    induction nps generalizing now n with
    | nil => exact List.prefix_refl _
    | cons np nps ih => exact prefix_newhideset.trans (ih _ _)
  exact run _ _ _

theorem stringify_since {row : List Token} : Since st (stringify row st).2 := by
  unfold stringify
  dsimp only
  split
  · exact Since.refl.error
  · exact .refl

theorem doconcat_since {done row : List Token} {space : Bool} :
    Since st (doconcat env done space row st).2 := by
  fun_induction doconcat env done space row st with
  | case1 => exact .refl
  | case2 done space t ts st kept sharp ih => exact ih
  | case3 done space t st other sharp ltp ntp ts left pasted ih => exact ih
  | case4 done space t ts st kept other sharp border ih => exact Since.refl.error.trans ih
  | case5 done space t ts st kept other plain ih => exact ih

theorem distribute_since {hs : Nat} {row : List Token} : Since st (distribute hs row st).2 := by
  induction row generalizing st with
  | nil => exact .refl
  | cons t ts ih =>
    unfold distribute
    split
    · split
      · exact ih
      · exact (Since.refl.hiding prefix_unionhideset).trans ih
    · exact ih

theorem replaceRow_since {np : Nat} {name : Token} {body done after : List Token}
    {src : List (List Token)} :
    Since st (replaceRow env np name body done after src st).2 :=
  (doconcat_since.hiding prefix_newhideset).trans distribute_since

theorem substargs_since (runs : ∀ row st r, run row st = .ok r → Since st r.2) {params : List Token}
    {atr : List (List Token)}
    {done body : List Token} {space : Bool} {r : List Token × Globals}
    (ran : substargs params atr run done space body st = .ok r) :
    Since st r.2 := by
  fun_induction substargs params atr run done space body st with
  | case1 done space st => exact Except.ok.inj ran ▸ .refl
  | case2 done space t st sharp u us argno param text ih => exact stringify_since.trans (ih ran)
  | case3 done space t st kept sharp u us other ih => exact Since.refl.error.trans (ih ran)
  | case4 done space t st kept sharp => exact Except.ok.inj ran ▸ Since.refl.error
  | case5 done space t ts st other argno param next ih => exact ih ran
  | case6 done space t ts st other argno param alone ih =>
    obtain ⟨expanded, inner, rest⟩ := ok_of_bind ran
    exact (runs _ _ _ inner).trans (ih expanded rest)
  | case7 done space t ts st kept other plain ih => exact ih ran

/-- A token that is not the name of a macro without arguments, or one that hides the macro. -/
def Spent (env : Env) (hidesets : Hidesets) (t : Token) : Prop :=
  t.type = .NAME → ∀ np n, lookup env t = some np → env.table[np]? = some n → n.expands = true →
    n.ap = none →
    np ∈ hidesets.set t.hideset

theorem Spent.since {t : Token} (spent : Spent env st.hidesets t) (since : Since st later) :
    Spent env later.hidesets t := by
  intro is_name np n found there expands plain
  have hidden := spent is_name np n found there expands plain
  obtain ⟨more, longer⟩ := since.hidesets
  by_cases valid : t.hideset < st.hidesets.length
  · rwa [set_extended ⟨more, longer⟩ valid]
  · unfold Hidesets.set at hidden
    rw [List.getD_eq_default _ _ (Nat.le_of_not_lt valid)] at hidden
    exact nomatch hidden

/-- What a turn leaves behind itself, if it finds no error. -/
structure Passes (env : Env) (st : Globals) (done : List Token) (r : Place × Globals) : Prop where
  since : Since st r.2
  spent : r.2.nerrs = false → ∃ passed, r.1.done = done ++ passed ∧
    ∀ t ∈ passed, Spent env r.2.hidesets t

theorem gather_passes (runs : ∀ row st r, run row st = .ok r → Since st r.2) {name : Token}
    {done before after params : List Token}
    {np : Nat} {n : Nlist} {src : List (List Token)} {r : Place × Globals}
    (ran : gather name done np n params env run before after src st = .ok r) :
      Passes env st done r := by
  unfold gather at ran
  dsimp only at ran
  generalize collect false 1 ((name :: before) ++ after.take 1) (after.drop 1) src = call at ran
  obtain ⟨args, -, rest⟩ := ok_of_bind ran
  have start : Since st (if call.1 = true then st else st.error) := by
    split
    · exact .refl
    · exact Since.refl.error
  generalize (if call.1 = true then st else st.error) = now at rest start
  split at rest
  · obtain rfl := Except.ok.inj rest
    exact ⟨(start.hiding prefix_newhideset).error, nofun⟩
  · obtain ⟨body, replaced, rest⟩ := ok_of_bind rest
    obtain rfl := Except.ok.inj rest
    refine ⟨(start.trans (substargs_since runs replaced)).trans replaceRow_since,
      fun _ => ⟨[], (List.append_nil _).symm, ?_⟩⟩
    exact List.forall_mem_nil _

theorem expand_passes (runs : ∀ row st r, run row st = .ok r → Since st r.2) {name : Token}
    {done more : List Token} {np : Nat}
    {n : Nlist} {src : List (List Token)} {r : Place × Globals} (found : lookup env name = some np)
    (there : env.table[np]? = some n)
    (ran : expand env run np n name done more src st = .ok r) : Passes env st done r := by
  unfold expand at ran
  cases parameters : n.ap with
  | none =>
    simp only [parameters] at ran
    obtain rfl := Except.ok.inj ran
    exact ⟨replaceRow_since, fun _ => ⟨[], (List.append_nil _).symm, List.forall_mem_nil _⟩⟩
  | some params =>
    simp only [parameters] at ran
    split at ran
    · exact nomatch ran
    · obtain rfl := Except.ok.inj ran
      exact ⟨.refl, fun _ => ⟨[], (List.append_nil _).symm, List.forall_mem_nil _⟩⟩
    · rename_i before after src' sought
      obtain rfl := Except.ok.inj ran
      refine ⟨.refl, fun _ =>
        ⟨name :: before, rfl, fun t mem is_name np' n' found' there' _ plain => ?_⟩⟩
      rcases List.mem_cons.mp mem with rfl | mem
      · obtain rfl := Option.some.inj (found.symm.trans found')
        obtain rfl := Option.some.inj (there.symm.trans there')
        exact nomatch parameters.symm.trans plain
      · obtain ⟨-, -, newlines⟩ := sought ▸ seek_splits [] more src
        rcases newlines t mem with never | newline
        · exact nomatch never
        · exact nomatch newline.symm.trans is_name
    · exact gather_passes runs ran

theorem candidate_none {t : Token} (is : candidate env st t = .ok none) :
    Spent env st.hidesets t := by
  intro is_name np n found there expands _
  have flags : (n.isDefined || n.isMac) = true := by
    unfold Nlist.expands at expands
    simp only [Bool.and_eq_true] at expands
    rw [expands.1.1, Bool.true_or]
  unfold candidate at is
  rw [if_neg (not_not.mpr is_name), found] at is
  dsimp only at is
  rw [there] at is
  dsimp only at is
  rw [if_pos flags] at is
  split at is
  · obtain ⟨hidden, checked, result⟩ := ok_of_bind is
    unfold checkhideset at checked
    split at checked
    · exact nomatch checked
    obtain rfl := Except.ok.inj checked
    split at result
    · rename_i hides
      exact List.contains_iff_mem.mp hides
    · exact nomatch result
  · exact nomatch is

theorem builtin_since {val : KwType} {t : Token} : Since st (builtin env val t st).2 := by
  unfold builtin
  dsimp only
  split
  · exact .refl
  · exact .refl
  · exact .refl
  · exact .refl
  · exact Since.refl.error

theorem builtin_type {val : KwType} {t : Token} : (builtin env val t st).1.type ≠ .NAME := by
  unfold builtin
  dsimp only
  split <;> exact nofun

theorem turn_passes (runs : ∀ row st r, run row st = .ok r → Since st r.2) {t : Token}
    {done more : List Token} {src : List (List Token)}
    {r : Place × Globals} (ran : turn env run done t more src st = .ok r) :
      Passes env st done r := by
  unfold turn at ran
  obtain ⟨found, is, rest⟩ := ok_of_bind ran
  cases found with
  | none =>
    obtain rfl := Except.ok.inj rest
    refine ⟨.refl, fun _ => ⟨[t], rfl, fun u mem => ?_⟩⟩
    rw [List.mem_singleton.mp mem]
    exact candidate_none is
  | some both =>
    obtain ⟨np, n⟩ := both
    obtain ⟨-, found, there, -, -⟩ := candidate_some is
    have away {hidesets : Hidesets} {u : Token} (other : u.type ≠ .NAME) :
      ∀ v ∈ [u], Spent env hidesets v := by
      intro v mem is_name
      exact absurd (List.mem_singleton.mp mem ▸ is_name) other
    dsimp only at rest
    split at rest
    · split at rest
      · obtain rfl := Except.ok.inj rest
        exact ⟨.refl, fun _ => ⟨_, rfl, away nofun⟩⟩
      · obtain rfl := Except.ok.inj rest
        exact ⟨Since.refl.error, fun _ => ⟨_, rfl, away nofun⟩⟩
    split at rest
    · obtain rfl := Except.ok.inj rest
      exact ⟨builtin_since, fun _ => ⟨_, rfl, away builtin_type⟩⟩
    · exact expand_passes runs found there rest

/-- What a run of the loop leaves. -/
structure Replaced (env : Env) (st : Globals) (done : List Token) (r : Place × Globals) : Prop where
  since : Since st r.2
  rest : r.1.rest = []
  spent : r.2.nerrs = false → (∀ t ∈ done, Spent env st.hidesets t) →
    ∀ t ∈ r.1.done, Spent env r.2.hidesets t

theorem expandrow_replaced {fuel : Nat} {done rest : List Token} {src : List (List Token)}
    {r : Place × Globals}
    (ran : expandrow env fuel ⟨done, rest, src⟩ st = .ok r) : Replaced env st done r := by
  induction fuel generalizing done rest src st r with
  | zero =>
    cases rest with
    | nil =>
      obtain rfl := Except.ok.inj ran
      exact ⟨.refl, rfl, fun _ spent => spent⟩
    | cons t more => cases ran
  | succ fuel ih =>
    cases rest with
    | nil =>
      obtain rfl := Except.ok.inj ran
      exact ⟨.refl, rfl, fun _ spent => spent⟩
    | cons t more =>
      rw [expandrow] at ran
      obtain ⟨next, turned, rest⟩ := ok_of_bind ran
      have passes : Passes env st done next := by
        refine turn_passes (fun row now r inner => ?_) turned
        cases result : expandrow env fuel ⟨[], row, []⟩ now with
        | error e =>
          rw [result] at inner
          cases inner
        | ok s =>
          rw [result] at inner
          obtain rfl := Except.ok.inj inner
          exact (ih result).since
      have later := ih rest
      refine ⟨passes.since.trans later.since, later.rest,
        fun clean spent => later.spent clean fun u mem => ?_⟩
      have clean_next : next.2.nerrs = false := by
        by_contra failed
        exact absurd (later.since.nerrs (Bool.eq_true_of_not_eq_false failed))
          (Bool.eq_false_iff.mp clean)
      obtain ⟨passed, is, passed_spent⟩ := passes.spent clean_next
      rcases List.mem_append.mp (is ▸ mem) with old | new
      · exact (spent u old).since passes.since
      · exact passed_spent u new

/-- In a row that has been expanded without an error, each name of a macro without arguments hides
it. -/
theorem expandrow_replaces {fuel : Nat} {row : List Token} {src : List (List Token)}
    {r : Place × Globals}
    (ran : expandrow env fuel ⟨[], row, src⟩ st = .ok r) (clean : r.2.nerrs = false) :
    r.1.rest = [] ∧ ∀ t ∈ r.1.done, Spent env r.2.hidesets t :=
  have replaced := expandrow_replaced ran
  ⟨replaced.rest, replaced.spent clean (List.forall_mem_nil _)⟩

end

/-- Two macros each of which stands for the other. -/
def eachOther : Env where
  table := [⟨['a'], [⟨.NAME, false, 0, 0, ['b']⟩], none, .other, true, false, by decide⟩,
    ⟨['b'], [⟨.NAME, false, 0, 0, ['a']⟩], none, .other, true, false, by decide⟩]
  lex text := ⟨.NAME, false, 0, 0, text⟩
  builtinText _ := []

theorem expandrow_replaces_eachOther :
    expandrow eachOther 3 ⟨[], [⟨.NAME, false, 0, 0, ['a']⟩], []⟩ ⟨iniths, false⟩ =
        .ok (⟨[⟨.NAME, true, 2, 1, ['a']⟩], [], []⟩, ⟨[[], [0], [0, 1]], false⟩) ∧
      Spent eachOther [[], [0], [0, 1]] ⟨.NAME, true, 2, 1, ['a']⟩ := by
  have ran : expandrow eachOther 3 ⟨[], [⟨.NAME, false, 0, 0, ['a']⟩], []⟩ ⟨iniths, false⟩ =
      .ok (⟨[⟨.NAME, true, 2, 1, ['a']⟩], [], []⟩, ⟨[[], [0], [0, 1]], false⟩) := rfl
  exact ⟨ran, (expandrow_replaces ran rfl).2 _ (List.mem_singleton_self _)⟩

end LC3Tools.Cpp
