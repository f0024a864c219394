import LC3Tools.Lcc.CodeListInvariant

/-! The code list has the equations of its calls, and so it runs like them. -/
namespace LC3Tools.CodeList
open Labels

variable {I : Type}

section
variable {S : Type} {exec : Exec I S} {entry : Meaning S} {K : Nat → Meaning S} {fall : Meaning S}
  {P : Nat → Prop} {base : Code I}
  {outer : Nat → Nat} {e tail front : Emit I} {new ls : List Nat} {before : Bool}

theorem sol_calls (inv : Inv P base outer e) (bottom : base = .start ∨ base = .head)
    (cs : List (Call I))
    (listed : ∀ l ∈ nodesTables (cs.flatMap Call.nodes), P l)
    (fresh : Fresh (labels (cs.flatMap Call.nodes)) e) :
    Sol exec entry K fall (emits cs e) ↔
      Sol exec entry K (den exec K fall (cs.flatMap Call.nodes)) e ∧
        Solves exec K fall (cs.flatMap Call.nodes) := by
  induction cs generalizing e with
  | nil => exact (and_true _).to_iff.symm
  | cons c cs ih =>
    rw [List.flatMap_cons, labels_append] at fresh
    rw [List.flatMap_cons] at listed ⊢
    have listed' : ∀ l ∈ nodesTables c.nodes ++ nodesTables (cs.flatMap Call.nodes), P l := by
      rw [nodesTables, nodesTables, ← List.flatMap_append]
      exact listed
    have first := inv.call bottom c (fun l mem => listed' l (List.mem_append_left _ mem))
      fresh.left.unknown
    have later := ih first (fun l mem => listed' l (List.mem_append_right _ mem))
      (fresh.grows (grows_call inv.tidy c fresh.left.unknown))
    rw [den_append, solves_append, ← and_assoc, ← sol_call inv.tidy c fresh.left.unknown]
    exact later

theorem sol_front (based : Based .head tail.code) (sealed : isSealed front.code = true)
    (flushed : front.forest = [])
    (G : Meaning S) :
    Sol exec entry K fall (front.joined tail) ↔ sol exec entry K fall tail.code ∧
      Sol exec entry K G front := by
  rw [sol_iff (e := front.joined tail) flushed, sol_iff flushed, ← and_assoc]
  refine and_congr_left' ?_
  change sol exec entry K fall (tail.code.dropLast ++ front.code) ↔ _
  rw [sol_join based, sol_isSealed sealed]

theorem sol_beheaded (empty : e.forest = []) : Sol exec entry K fall e.beheaded ↔
    Agrees K e.symbols := by
  rw [sol_iff (e := e.beheaded) empty]
  exact (true_and _).to_iff

theorem sol_back (flushed : tail.forest = []) :
    Sol exec entry K fall (e.back tail) ↔ sol exec entry K fall e.code ∧ Agrees K tail.symbols :=
  sol_iff (e := e.back tail) flushed

theorem sol_of_nodes (cs : Calls I) (formed : cs.WellFormed P before) (inv : Inv P base outer e)
    (bottom : base = .start ∨ base = .head) (empty : before = false → e.forest = [])
    (fresh : Fresh (labels cs.nodes) e)
    (sol : Sol exec entry K (den exec K fall cs.nodes) e) (solves : Solves exec K fall cs.nodes) :
    Sol exec entry K fall (cs.emit e) := by
  induction cs generalizing e before base outer fall with
  | done => exact sol
  | call c rest ih =>
    have fresh' : Fresh (labels c.nodes ++ labels rest.nodes) e :=
      labels_append (a := c.nodes) ▸ fresh
    rw [Calls.nodes, den_append] at sol
    rw [Calls.nodes, solves_append] at solves
    exact ih formed.2 (inv.call bottom c formed.1 fresh'.left.unknown) bottom
      (pending_call before c empty)
      (fresh'.grows (grows_call inv.tidy c fresh'.left.unknown))
      ((sol_call inv.tidy c fresh'.left.unknown).mpr ⟨sol, solves.1⟩) solves.2
  | close lab rest ih =>
    have fresh' : Fresh ([lab] ++ labels rest.nodes) e := fresh
    have known : ¬ Known e lab := fresh'.left.unknown lab (List.mem_singleton_self _)
    unfold Calls.emit
    by_cases used : e.symbols.ref lab ≠ 0
    · rw [if_pos used]
      exact ih formed.2.2 (inv.call bottom (.defineLab lab)
        (fun l mem => absurd mem List.not_mem_nil) fresh'.left.unknown)
        bottom (fun _ => walk_forest e) (fresh'.grows (grows_defineLab inv.tidy known))
        (sol_defineLab.mpr ⟨sol, solves.1⟩) solves.2
    · rw [if_neg used]
      exact ih formed.2.2 inv bottom empty fresh'.right sol solves.2
  | switch body calls rest ihBody ihRest =>
    have dispatch := inv.dispatch formed bottom empty fresh
    obtain ⟨-, -, -, listed, -, body_formed, rest_formed⟩ := formed
    have start_empty := dispatch.written.empty
    rw [Calls.nodes, den_append, den_append] at sol
    rw [Calls.nodes, solves_append, solves_append, den_append] at solves
    obtain ⟨in_calls, in_body, in_rest⟩ := solves
    have at_head : Sol exec entry K (den exec K (den exec K fall rest.nodes) body.nodes)
      e.beheaded :=
      (sol_beheaded start_empty).mpr sol.agrees
    have at_tail := ihBody body_formed (inv.beheaded start_empty) (.inr rfl) (fun _ => start_empty)
      (dispatch.written.fresh.beheaded start_empty) at_head in_body
    have at_back := (sol_back dispatch.written.flushed).mpr
      ⟨((sol_iff start_empty).mp sol).1, at_tail.agrees⟩
    have at_front := (sol_calls dispatch.written.inv_back bottom calls listed dispatch.fresh).mpr
      ⟨at_back, in_calls⟩
    have at_end := (sol_front dispatch.written.inv.based dispatch.sealed dispatch.flushed _).mpr
      ⟨((sol_iff dispatch.written.flushed).mp at_tail).1, at_front⟩
    exact ihRest rest_formed dispatch.inv bottom
      (fun _ => dispatch.flushed) dispatch.later at_end in_rest

theorem sol_update {K' : Nat → Meaning S} {code : List (Code I)}
    (other : ∀ l, K' l ≠ K l → l ∉ codeUses code ∧ l ∉ codeTables code ∧ l ∉ codeLabels code) :
    sol exec entry K fall code ↔ sol exec entry K' fall code := by
  have same {l : Nat} (named : ¬ (l ∉ codeUses code ∧ l ∉ codeTables code ∧ l ∉ codeLabels code)) :
    K l = K' l := by
    by_contra differs
    exact named (other l fun back => differs back.symm)
  exact sol_congr (fun l mem => same (by simp [mem])) (fun l mem => same (by simp [mem]))
    fun l mem => same (by simp [mem])

/-- Neither a label of the list nor one that it jumps to. -/
structure Unnamed (e : Emit I) (l : Nat) : Prop where
  uses : l ∉ e.uses
  tables : l ∉ codeTables e.code ++ nodesTables e.forest
  unknown : ¬ Known e l
  target : ∀ old, e.symbols.equated.to? old ≠ some l

theorem Sol.update {K' : Nat → Meaning S} (sol : Sol exec entry K fall e)
    (other : ∀ l, K' l ≠ K l → Unnamed e l) :
    Sol exec entry K' fall e := by
  have in_forest : ∀ l ∈ targets e.forest.reverse, K l = K' l := by
    intro l mem
    by_contra differs
    have unnamed := other l fun same => differs same.symm
    rcases (targets_iff _ l).mp mem with used | tabled
    · refine unnamed.uses (List.mem_append_right _ ?_)
      simpa only [List.mem_flatMap, List.mem_reverse] using used
    · refine unnamed.tables (List.mem_append_right _ ?_)
      simpa only [nodesTables, List.mem_flatMap, List.mem_reverse] using tabled
  have labels_forest : ∀ l ∈ labels e.forest.reverse, K l = K' l := by
    intro l mem
    by_contra differs
    exact (other l fun same => differs same.symm).unknown
      (.inl (List.mem_append_right _ ((mem_labels_reverse _ l).mp mem)))
  refine ⟨?_, (solves_congr in_forest labels_forest).mp sol.forest, ?_⟩
  · rw [← den_congr in_forest]
    refine (sol_update fun l differs => ?_).mp sol.code
    have unnamed := other l differs
    exact ⟨fun mem => unnamed.uses (List.mem_append_left _ mem),
      fun mem => unnamed.tables (List.mem_append_left _ mem),
      fun mem => unnamed.unknown (.inl (List.mem_append_left _ mem))⟩
  · intro l l' next
    have here : K' l = K l := by
      by_contra differs
      exact (other l differs).unknown (.inr (next ▸ Option.some_ne_none l'))
    have there : K' l' = K l' := by
      by_contra differs
      exact (other l' differs).target l next
    rw [here, there]
    exact sol.agrees l l' next

theorem closed_labels (cs : Calls I) : ∀ l ∈ cs.closed, l ∈ labels cs.nodes := by
  intro l mem
  induction cs with
  | done => exact mem
  | call c rest ih =>
    rw [Calls.nodes, labels_append]
    exact List.mem_append_right _ (ih mem)
  | close lab rest ih =>
    rcases List.mem_cons.mp mem with rfl | later
    · exact List.mem_cons_self ..
    · exact List.mem_cons_of_mem _ (ih later)
  | switch body calls rest ihBody ihRest =>
    rw [Calls.nodes, labels_append, labels_append]
    rcases List.mem_append.mp mem with inside | later
    · exact List.mem_append_right _ (List.mem_append_left _ (ihBody inside))
    · exact List.mem_append_right _ (List.mem_append_right _ (ihRest later))

theorem closed_tables (cs : Calls I) (formed : cs.WellFormed P before) :
    ∀ l ∈ cs.closed, ¬ P l := by
  intro l mem
  induction cs generalizing before with
  | done => exact absurd mem List.not_mem_nil
  | call c rest ih => exact ih formed.2 mem
  | close lab rest ih =>
    rcases List.mem_cons.mp mem with rfl | later
    · exact formed.1
    · exact ih formed.2.2 later
  | switch body calls rest ihBody ihRest =>
    obtain ⟨-, -, -, -, -, body_formed, rest_formed⟩ := formed
    rcases List.mem_append.mp mem with inside | later
    · exact ihBody body_formed inside
    · exact ihRest rest_formed later

/-- What solves the equations of the list solves the ones of the nodes, with a meaning for the
labels that have stayed undefined. -/
def Recovered {S : Type} (exec : Exec I S) (entry : Meaning S) (P : Nat → Prop) (cs : Calls I) :
    Prop :=
  ∀ {base : Code I} {outer : Nat → Nat} {e : Emit I} {before : Bool} {fall : Meaning S}
    {K : Nat → Meaning S}, cs.WellFormed P before → Inv P base outer e →
    (base = .start ∨ base = .head) → (before = false → e.forest = []) →
    Fresh (labels cs.nodes) e → Sol exec entry K fall (cs.emit e) →
    ∃ K' : Nat → Meaning S, (∀ l, K' l ≠ K l → l ∈ cs.closed ∧ outer l = 0) ∧
      Sol exec entry K' (den exec K' fall cs.nodes) e ∧ Solves exec K' fall cs.nodes

theorem recovered_call {c : Call I} {rest : Calls I}
    (ih : Recovered exec entry P rest) : Recovered exec entry P (.call c rest) := by
  intro base outer e before fall K formed inv bottom empty fresh sol
  have fresh' : Fresh (labels c.nodes ++ labels rest.nodes) e :=
    labels_append (a := c.nodes) ▸ fresh
  obtain ⟨K', other, before_rest, in_rest⟩ :=
    ih formed.2 (inv.call bottom c formed.1 fresh'.left.unknown) bottom
    (pending_call before c empty) (fresh'.grows (grows_call inv.tidy c fresh'.left.unknown)) sol
  obtain ⟨start, here⟩ := (sol_call inv.tidy c fresh'.left.unknown).mp before_rest
  refine ⟨K', other, ?_, ?_⟩
  · rw [Calls.nodes, den_append]
    exact start
  · rw [Calls.nodes, solves_append]
    exact ⟨here, in_rest⟩

theorem recovered_close {lab : Nat} {rest : Calls I}
    (ih : Recovered exec entry P rest) : Recovered exec entry P (.close lab rest) := by
  intro base outer e before fall K formed inv bottom empty fresh sol
  have fresh' : Fresh ([lab] ++ labels rest.nodes) e := fresh
  have known : ¬ Known e lab := fresh'.left.unknown lab (List.mem_singleton_self _)
  unfold Calls.emit at sol
  by_cases used : e.symbols.ref lab ≠ 0
  · rw [if_pos used] at sol
    obtain ⟨K', other, before_rest, in_rest⟩ := ih formed.2.2
      (inv.call bottom (.defineLab lab)
        (fun l mem => absurd mem List.not_mem_nil) fresh'.left.unknown) bottom
      (fun _ => walk_forest e) (fresh'.grows (grows_defineLab inv.tidy known)) sol
    obtain ⟨start, here⟩ := sol_defineLab.mp before_rest
    exact ⟨K', fun l differs => (other l differs).imp_left (List.mem_cons_of_mem _), start, here,
      in_rest⟩
  · rw [if_neg used] at sol
    obtain ⟨K', other, before_rest, in_rest⟩ := ih formed.2.2 inv bottom empty fresh'.right sol
    have unused : e.uses.count lab + outer lab ≤ 0 := (inv.counted.uses lab).trans (by omega)
    have unnamed : Unnamed e lab := by
      refine ⟨?_, ?_, known, ?_⟩
      · exact List.count_eq_zero.mp (by omega)
      · exact fun mem => formed.1 (inv.tabled lab mem)
      · intro old next
        have more := inv.counted.equated old lab next
        omega
    let F : Meaning S := den exec K' fall rest.nodes
    let K'' : Nat → Meaning S := Function.update K' lab F
    have elsewhere {l : Nat} (apart : l ≠ lab) : K'' l = K' l := Function.update_of_ne apart ..
    have changed {l : Nat} (differs : K'' l ≠ K' l) : l = lab := by
      by_contra apart
      exact differs (elsewhere apart)
    have in_targets : ∀ l ∈ targets rest.nodes, K' l = K'' l := by
      intro l mem
      exact (elsewhere fun same => formed.2.1 (same ▸ mem)).symm
    have in_labels : ∀ l ∈ labels rest.nodes, K' l = K'' l := by
      intro l mem
      exact (elsewhere fun same => (List.nodup_cons.mp fresh.once).1 (same ▸ mem)).symm
    have same_rest : den exec K'' fall rest.nodes = F := (den_congr in_targets).symm
    refine ⟨K'', fun l differs => ?_, ?_, ?_, (solves_congr in_targets in_labels).mp in_rest⟩
    · by_cases here : l = lab
      · subst here
        exact ⟨List.mem_cons_self .., by omega⟩
      · rw [elsewhere here] at differs
        exact (other l differs).imp_left (List.mem_cons_of_mem _)
    · change Sol exec entry K'' (den exec K'' fall rest.nodes) e
      rw [same_rest]
      exact before_rest.update fun l differs => changed differs ▸ unnamed
    · rw [same_rest]
      exact Function.update_self ..

theorem recovered_switch {body rest : Calls I} {calls : List (Call I)}
    (ihBody : Recovered exec entry P body) (ihRest : Recovered exec entry P rest) :
    Recovered exec entry P (.switch body calls rest) := by
  intro base outer e before fall K formed inv bottom empty fresh sol
  have dispatch := inv.dispatch formed bottom empty fresh
  have written := dispatch.written
  have closed_outside := closed_tables body formed.2.2.2.2.2.1
  obtain ⟨-, -, -, listed, apart, body_formed, rest_formed⟩ := formed
  have start_empty := written.empty
  obtain ⟨K₁, other₁, at_end, in_rest⟩ :=
    ihRest rest_formed dispatch.inv bottom (fun _ => dispatch.flushed)
    dispatch.later sol
  have split (G : Meaning S) :=
    (sol_front written.inv.based dispatch.sealed dispatch.flushed G).mp at_end
  have back (G : Meaning S) :=
    (sol_calls written.inv_back bottom calls listed dispatch.fresh).mp (split G).2
  have at_tail : Sol exec entry K₁ (den exec K₁ fall rest.nodes) (body.emit e.beheaded) :=
    (sol_iff written.flushed).mpr ⟨(split fall).1, (back fall).1.agrees⟩
  obtain ⟨K₂, other₂, at_head, in_body⟩ :=
    ihBody body_formed (inv.beheaded start_empty) (.inr rfl)
    (fun _ => start_empty) (written.fresh.beheaded start_empty) at_tail
  have parts : labels (Calls.switch body calls rest).nodes =
      labels (calls.flatMap Call.nodes) ++ (labels body.nodes ++ labels rest.nodes) := by
    simp only [Calls.nodes, labels_append]
  rw [parts] at fresh
  -- The labels that have stayed undefined in the body are named nowhere else.
  have unchanged {l : Nat}
      (named : l ∈ targets (calls.flatMap Call.nodes) ∨ l ∈ targets rest.nodes ∨
      l ∈ labels (calls.flatMap Call.nodes) ∨ l ∈ labels rest.nodes) : K₁ l = K₂ l := by
    by_contra differs
    have closed := (other₂ l fun same => differs same.symm).1
    have inside := closed_labels body l closed
    rcases named with target | target | label | label
    · exact (apart l closed).1 target
    · exact (apart l closed).2 target
    · exact (List.nodup_append.mp fresh.once).2.2 l label l (List.mem_append_left _ inside) rfl
    · exact (List.nodup_append.mp fresh.right.once).2.2 l inside l label rfl
  have same_rest : den exec K₁ fall rest.nodes = den exec K₂ fall rest.nodes :=
    den_congr fun l mem => unchanged (.inr (.inl mem))
  rw [same_rest] at at_head in_body
  obtain ⟨at_back, in_calls⟩ := back (den exec K₂ (den exec K₂ fall rest.nodes) body.nodes)
  have same_calls (G : Meaning S) :
      den exec K₁ G (calls.flatMap Call.nodes) = den exec K₂ G (calls.flatMap Call.nodes) :=
    den_congr fun l mem => unchanged (.inl mem)
  have before_list := ((sol_back written.flushed).mp at_back).1
  rw [same_calls] at before_list
  have start_list := (sol_update fun l differs => by
    obtain ⟨closed, unused⟩ := other₂ l differs
    have inside := closed_labels body l closed
    exact ⟨List.count_eq_zero.mp (by omega),
      fun mem => closed_outside l closed (inv.tabled l (List.mem_append_left _ mem)),
      fun mem => written.fresh.unknown l inside (.inl (List.mem_append_left _ mem))⟩).mp
        before_list
  refine ⟨K₂, fun l differs => ?_, ?_, ?_⟩
  · by_cases same : K₂ l = K₁ l
    · rw [same] at differs
      exact (other₁ l differs).imp_left (List.mem_append_right _)
    · obtain ⟨closed, unused⟩ := other₂ l same
      exact ⟨List.mem_append_left _ closed, by omega⟩
  · rw [Calls.nodes, den_append, den_append]
    exact (sol_iff start_empty).mpr ⟨start_list, at_head.agrees⟩
  · rw [Calls.nodes, solves_append, solves_append, den_append]
    refine ⟨?_, in_body, ?_⟩
    · exact (solves_congr (fun l mem => unchanged (.inl mem)) fun l mem => unchanged
        (.inr (.inr (.inl mem)))).mp in_calls
    · exact (solves_congr (fun l mem => unchanged (.inr (.inl mem)))
        fun l mem => unchanged (.inr (.inr (.inr mem)))).mp in_rest

theorem nodes_of_sol (cs : Calls I) : Recovered exec entry P cs := by
  induction cs with
  | done =>
    intro base outer e before fall K formed inv bottom empty fresh sol
    exact ⟨K, fun l differs => absurd rfl differs, sol, trivial⟩
  | call c rest ih => exact recovered_call ih
  | close lab rest ih => exact recovered_close ih
  | switch body calls rest ihBody ihRest => exact recovered_switch ihBody ihRest

theorem equated_agrees {t : Symbols} (agrees : Agrees K t) (l : Nat) :
    K (t.equated.equated l) = K l := by
  induction l using Equated.equated.induct t.equated with
  | case1 l l' next ih => rw [Equated.equated_some next, ih, agrees l l' next]
  | case2 l last => rw [Equated.equated_none last]

end

/-- The list at the start of a function. -/
def Emit.initial : Emit I where
  code := [.start]
  forest := []
  symbols := ⟨Equated.empty, fun _ => 0⟩

theorem initial_inv (P : Nat → Prop) : Inv P .start (fun _ => 0) (Emit.initial : Emit I) where
  tidy := ⟨fun _ mem => absurd mem List.not_mem_nil, List.nodup_nil⟩
  based := .bottom
  counted := ⟨fun _ => Nat.le_refl 0, fun _ _ never => nomatch never⟩
  tabled _ mem := absurd mem List.not_mem_nil

theorem initial_fresh {ls : List Nat} (once : ls.Nodup) : Fresh ls (Emit.initial : Emit I) where
  unknown _ _ known := known.elim List.not_mem_nil fun next => next rfl
  once := once

/-- What is generated from the list of a function does what its calls say one after the other: no
jump and no label that has been taken out is missing. -/
theorem text_runs {S : Type} (exec : Exec I S) (P : Nat → Prop) (cs : Calls I)
    (formed : cs.WellFormed P false)
    (once : (labels cs.nodes).Nodup) (flushed : cs.pending false = false) (s t : S) :
    Runs exec (cs.emit .initial).text (cs.emit .initial).text s t ↔
      Runs exec cs.nodes cs.nodes s t := by
  have fresh : Fresh (labels cs.nodes) (Emit.initial : Emit I) := initial_fresh once
  have inv := initial_inv (I := I) P
  obtain ⟨last, -, empty⟩ := inv.emit cs formed (.inl rfl) (fun _ => rfl) fresh
  have forest := empty flushed
  have fixed : ∀ l ∈ labels (codeNodes (cs.emit .initial).code),
    (cs.emit .initial).symbols.equated.equated l = l := by
    intro l mem
    exact Equated.equated_none
      (last.tidy.last l (List.mem_append_left _ ((codeNodes_labels _).mem_iff.mp mem)))
  have at_start {entry : Meaning S} {K : Nat → Meaning S} {fall : Meaning S} :
      Sol exec entry K fall (Emit.initial : Emit I) ↔ entry = fall :=
    (sol_iff rfl).trans ⟨fun both => both.1, fun here => ⟨here, fun _ _ never => nomatch never⟩⟩
  constructor
  · intro ran
    have solves : Solves exec (RunsAt exec cs.nodes) Eq cs.nodes :=
      runsAt_solves once (List.suffix_refl _)
    have sol := sol_of_nodes cs formed inv (.inl rfl) (fun _ => rfl) fresh (at_start.mpr rfl) solves
    obtain ⟨code, agrees⟩ := (sol_iff forest).mp sol
    obtain ⟨start, in_code⟩ := (sol_start last.based).mp code
    have chains : (fun l => RunsAt exec cs.nodes ((cs.emit .initial).symbols.equated.equated l)) =
      RunsAt exec cs.nodes :=
      funext (equated_agrees agrees)
    have in_text : Solves exec (RunsAt exec cs.nodes) Eq (cs.emit .initial).text := by
      refine (solves_rename fixed).mpr ?_
      rw [chains]
      exact in_code
    have meant := ran.den_of_solves in_text
    rw [Emit.text, den_rename, chains] at meant
    exact runs_iff.mpr (start ▸ meant)
  · intro ran
    have once_text : (labels (cs.emit .initial).text).Nodup := by
      rw [Emit.text, labels_rename]
      exact (codeNodes_labels _).nodup_iff.mpr (List.nodup_append.mp last.tidy.once).1
    let K (l : Nat) : Meaning S :=
      RunsAt exec (cs.emit .initial).text ((cs.emit .initial).symbols.equated.equated l)
    have in_code : Solves exec K Eq (codeNodes (cs.emit .initial).code) :=
      (solves_rename fixed).mp (runsAt_solves once_text (List.suffix_refl _))
    have sol : Sol exec (Runs exec (cs.emit .initial).text (cs.emit .initial).text) K Eq
      (cs.emit .initial) := by
      refine (sol_iff forest).mpr ⟨(sol_start last.based).mpr ⟨?_, in_code⟩, ?_⟩
      · funext s t
        refine propext (runs_iff.trans ?_)
        rw [Emit.text, den_rename]
        exact Iff.rfl
      · intro l l' next
        change RunsAt _ _ _ = RunsAt _ _ _
        rw [Equated.equated_some next]
    obtain ⟨K', -, start, in_nodes⟩ :=
      nodes_of_sol cs formed inv (.inl rfl) (fun _ => rfl) fresh sol
    rw [at_start.mp start]
    exact ran.den_of_solves in_nodes

/-- A jump to the label behind it, and one that nothing jumps to. -/
def skipping : Calls Bool :=
  .call (.list true [2])
    (.call (.branch 3) (.call (.defineLab 3) (.call (.list false []) (.call (.defineLab 2)
    (.close 4 .done)))))

theorem text_runs_skipping :
    Runs (fun i s => some (if i && s = 0 then some 0 else none, s + 1))
      (skipping.emit .initial).text
      (skipping.emit .initial).text 1 3 := by
  refine (text_runs _ (fun _ => False) skipping ?_ (by decide) rfl 1 3).mpr ?_
  · exact ⟨nofun, nofun, nofun, nofun, nofun, not_false, List.not_mem_nil, trivial⟩
  · refine .act rfl (.jump (List.drop_suffix 2 skipping.nodes) ?_)
    exact .act rfl (.label (.label (.done 3)))

end LC3Tools.CodeList
