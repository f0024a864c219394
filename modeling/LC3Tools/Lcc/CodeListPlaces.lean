import LC3Tools.Lcc.CodeList

/-! What the calls do to the places of the labels, and to their references. -/
namespace LC3Tools.CodeList
open Labels

variable {I : Type}

/-- New places only for new labels. -/
structure Grows (new : List Nat) (e e' : Emit I) : Prop where
  tidy : Tidy e'
  known : ∀ l, Known e' l → Known e l ∨ l ∈ new
  kept : ∀ l l', e.symbols.equated.to? l = some l' → e'.symbols.equated.to? l = some l'

section
variable {code prev : List (Code I)} {e e' e'' : Emit I} {t : Symbols} {lab : Nat}
  {new new' : List Nat}

theorem Grows.refl (tidy : Tidy e) : Grows [] e e := ⟨tidy, fun _ => .inl, fun _ _ => id⟩

theorem Grows.trans (first : Grows new e e') (later : Grows new' e' e'') :
    Grows (new ++ new') e e'' where
  tidy := later.tidy
  known l known := by
    rcases later.known l known with old | mem
    · exact (first.known l old).imp_right (List.mem_append_left _)
    · exact .inr (List.mem_append_right _ mem)
  kept l l' next := later.kept l l' (first.kept l l' next)

theorem Grows.of_same (tidy : Tidy e)
    (same : codeLabels e'.code ++ labels e'.forest = codeLabels e.code ++ labels e.forest)
    (equated : e'.symbols.equated = e.symbols.equated) : Grows [] e e' := by
  refine ⟨⟨?_, same ▸ tidy.once⟩, fun l known => .inl ?_, fun l l' next => equated ▸ next⟩
  · rw [same, equated]
    exact tidy.last
  · unfold Known at known ⊢
    rw [same, equated] at known
    exact known

theorem grows_walk (tidy : Tidy e) : Grows [] e e.walk :=
  ⟨tidy.walk, fun l known => .inl ((known_walk l).mp known),
    fun _ _ next => (walk_symbols e).symm ▸ next⟩

theorem Grows.of_new (tidy : Tidy e) (fresh : ¬ Known e lab)
    (perm : (codeLabels e'.code ++ labels e'.forest).Perm
      (lab :: (codeLabels e.code ++ labels e.forest)))
    (equated : e'.symbols.equated = e.symbols.equated) : Grows [lab] e e' := by
  have unequated : e.symbols.equated.to? lab = none := not_not.mp fun known => fresh (.inr known)
  refine ⟨⟨?_, ?_⟩, ?_, fun l l' next => equated ▸ next⟩
  · intro l mem
    rw [equated]
    rcases List.mem_cons.mp (perm.mem_iff.mp mem) with rfl | old
    · exact unequated
    · exact tidy.last l old
  · exact perm.nodup_iff.mpr (List.nodup_cons.mpr ⟨fun mem => fresh (.inl mem), tidy.once⟩)
  · intro l known
    unfold Known at known ⊢
    rw [perm.mem_iff, equated, List.mem_cons] at known
    rcases known with (rfl | mem) | next
    · exact .inr (List.mem_singleton_self _)
    · exact .inl (.inl mem)
    · exact .inl (.inr next)

theorem grows_labelnode (tidy : Tidy e) (fresh : ¬ Known e lab) :
    Grows [lab] e (e.labelnode lab) := by
  unfold Emit.labelnode
  split
  · rename_i m rest last
    have unequated : e.symbols.equated.to? lab = none := not_not.mp fun known => fresh (.inr known)
    have apart {l : Nat} (other : l ≠ lab) :
      (e.symbols.equateLab lab m).equated.to? l = e.symbols.equated.to? l :=
      equatelab_to? other
    refine ⟨⟨fun l mem => ?_, tidy.once⟩, fun l known => ?_, fun l l' next => ?_⟩
    · rw [apart fun same => fresh (.inl (same ▸ mem))]
      exact tidy.last l mem
    · by_cases same : l = lab
      · exact .inr (same ▸ List.mem_singleton_self _)
      · refine .inl (known.imp_right fun next => ?_)
        rw [← apart same]
        exact next
    · rw [apart, next]
      rintro rfl
      cases unequated.symm.trans next
  · exact .of_new tidy fresh List.perm_middle rfl

theorem absorb_labels (lab : Nat) (last : ∀ l ∈ codeLabels code, t.equated.to? l = none)
    (once : (codeLabels code).Nodup) :
    (codeLabels (absorb lab code t).1).Sublist (codeLabels code) ∧
    (∀ l ∈ codeLabels (absorb lab code t).1, (absorb lab code t).2.equated.to? l = none) ∧
    (∀ l, l ∉ codeLabels code → (absorb lab code t).2.equated.to? l = t.equated.to? l) := by
  induction code generalizing t with
  | nil => exact ⟨.refl _, last, fun _ _ => rfl⟩
  | cons c prev ih =>
    cases c with
    | point => exact ih last once
    | start | gen | jump | switch | head => exact ⟨.refl _, last, fun _ _ => rfl⟩
    | label m =>
      obtain ⟨elsewhere, once'⟩ := List.nodup_cons.mp once
      unfold absorb
      split
      · exact ⟨.refl _, last, fun _ _ => rfl⟩
      · obtain ⟨sub, still, apart⟩ := ih (t := t.equateLab m lab)
          (fun l mem => (equatelab_to? (ne_of_mem_of_not_mem mem elsewhere)).trans
            (last l (List.mem_cons_of_mem _ mem)))
          once'
        refine ⟨sub.cons _, still, fun l other => ?_⟩
        have split : l ≠ m ∧ l ∉ codeLabels prev := List.ne_and_not_mem_of_not_mem_cons other
        rw [apart l split.2, equatelab_to? split.1]

theorem grows_branch (tidy : Tidy e) : Grows [] e (e.branch lab) := by
  have walked := grows_walk tidy
  have empty := walk_forest e
  have here : codeLabels e.walk.code ++ labels e.walk.forest = codeLabels e.walk.code := by
    rw [empty]
    exact List.append_nil _
  have last : ∀ l ∈ codeLabels e.walk.code, (e.walk.symbols.addRef lab).equated.to? l = none :=
    fun l mem => walked.tidy.last l (List.mem_append_left _ mem)
  obtain ⟨sub, still, apart⟩ := absorb_labels lab last (here ▸ walked.tidy.once)
  have step (e' : Emit I) (code :
      codeLabels e'.code = codeLabels (absorb lab e.walk.code (e.walk.symbols.addRef lab)).1)
      (forest : e'.forest = [])
      (equated : e'.symbols.equated =
        (absorb lab e.walk.code (e.walk.symbols.addRef lab)).2.equated) :
      Grows [] e.walk e' := by
    have there : codeLabels e'.code ++ labels e'.forest = codeLabels e'.code := by
      rw [forest]
      exact List.append_nil _
    refine ⟨⟨?_, ?_⟩, ?_, ?_⟩
    · rw [there, code, equated]
      exact still
    · rw [there, code]
      exact sub.nodup (here ▸ walked.tidy.once)
    · intro l known
      refine .inl ?_
      unfold Known at known ⊢
      rw [there, code, equated] at known
      rw [here]
      by_cases mem : l ∈ codeLabels e.walk.code
      · exact .inl mem
      · rw [apart l mem] at known
        exact known.imp_left fun kept => sub.subset kept
    · intro l l' next
      rw [equated, apart l]
      · exact next
      · intro mem
        cases (last l mem).symm.trans next
  have done : Grows [] e.walk (e.branch lab) := by
    unfold Emit.branch
    dsimp only
    split
    · exact step _ rfl empty rfl
    · exact step _ rfl empty rfl
  exact walked.trans done

theorem dropJumps_labels (lab : Nat) (code : List (Code I)) (t : Symbols) :
    codeLabels (dropJumps lab code t).1 = codeLabels code := by
  induction code generalizing t with
  | nil => rfl
  | cons c prev ih =>
    cases c with
    | point => exact ih t
    | label m => exact congrArg (m :: ·) (ih t)
    | start | gen | switch | head => rfl
    | jump l =>
      unfold dropJumps
      split
      · exact ih _
      · rfl

theorem grows_defineLab (tidy : Tidy e) (fresh : ¬ Known e lab) :
    Grows [lab] e (e.defineLab lab) := by
  have walked := grows_walk tidy
  refine walked.trans (.of_new walked.tidy (fun known => fresh ((known_walk lab).mp known)) ?_
    (dropJumps_equated ..))
  change (lab :: (codeLabels (dropJumps lab e.walk.code e.walk.symbols).1 ++ _)).Perm _
  rw [dropJumps_labels]
  exact .refl _

theorem grows_call (tidy : Tidy e) (c : Call I) (fresh : ∀ l ∈ labels c.nodes, ¬ Known e l) :
    Grows (labels c.nodes) e (c.emit e) := by
  cases c with
  | list i ls => exact .of_same tidy rfl (addRefs_equated ls e.symbols)
  | jumpnode lab => exact .of_same tidy rfl rfl
  | labelnode lab => exact grows_labelnode tidy (fresh lab (List.mem_singleton_self _))
  | walk => exact grows_walk tidy
  | point => exact .of_same tidy rfl rfl
  | branch lab => exact grows_branch tidy
  | defineLab lab => exact grows_defineLab tidy (fresh lab (List.mem_singleton_self _))
  | switch table ls => exact (grows_walk tidy).trans (.of_same (grows_walk tidy).tidy rfl rfl)

end

/-! `ref` counts the jumps to a label and the labels that are equated to it. -/

/-- The labels that are counted at a node. A table has its labels without. -/
def uses : Node Nat I → List Nat
  | .jump l => [l]
  | .act _ ts => ts
  | _ => []

def tables : Node Nat I → List Nat
  | .table _ ts => ts
  | _ => []

theorem mem_targets_iff (n : Node Nat I) (l : Nat) : l ∈ n.targets ↔ l ∈ uses n ∨ l ∈ tables n := by
  cases n <;> simp [Node.targets, uses, tables]

def codeUses (code : List (Code I)) : List Nat := code.flatMap fun c => c.nodes.flatMap uses

def Emit.uses (e : Emit I) : List Nat := codeUses e.code ++ e.forest.flatMap CodeList.uses

/-- No label has more uses, here and outside, than references. -/
structure Counted (outer : Nat → Nat) (us : List Nat) (t : Symbols) : Prop where
  uses : ∀ l, us.count l + outer l ≤ t.ref l
  equated : ∀ old l, t.equated.to? old = some l → us.count l + outer l < t.ref l

section
variable {code prev : List (Code I)} {e : Emit I} {t : Symbols} {lab : Nat} {outer : Nat → Nat}
  {us vs : List Nat}

theorem Counted.perm (counted : Counted outer us t) (perm : us.Perm vs) : Counted outer vs t :=
  ⟨fun l => perm.count_eq l ▸ counted.uses l,
    fun old l next => perm.count_eq l ▸ counted.equated old l next⟩

theorem counted_append : Counted outer (us ++ vs) t ↔
    Counted (fun l => vs.count l + outer l) us t := by
  constructor
  · rintro ⟨uses, equated⟩
    refine ⟨fun l => ?_, fun old l next => ?_⟩
    · have here := uses l
      rw [List.count_append] at here
      omega
    · have here := equated old l next
      rw [List.count_append] at here
      omega
  · rintro ⟨uses, equated⟩
    refine ⟨fun l => ?_, fun old l next => ?_⟩
    · have here := uses l
      rw [List.count_append]
      omega
    · have here := equated old l next
      rw [List.count_append]
      omega

theorem Counted.addRef (counted : Counted outer us t) (lab : Nat) :
    Counted outer (lab :: us) (t.addRef lab) := by
  have grown (l : Nat) : (t.addRef lab).ref l = t.ref l + [lab].count l := by
    unfold Symbols.addRef
    by_cases same : l = lab
    · simp [same]
    · simp [same, Ne.symm same]
  have parts (l : Nat) : (lab :: us).count l = [lab].count l + us.count l := by
    rw [← List.count_append]
    rfl
  refine ⟨fun l => ?_, fun old l next => ?_⟩
  · have here := counted.uses l
    rw [grown, parts]
    omega
  · have here := counted.equated old l next
    rw [grown, parts]
    omega

theorem Counted.subRef (counted : Counted outer (lab :: us) t) :
    Counted outer us (t.subRef lab) := by
  have shrunk (l : Nat) : (t.subRef lab).ref l = t.ref l - [lab].count l := by
    unfold Symbols.subRef
    by_cases same : l = lab
    · simp [same]
    · simp [same, Ne.symm same]
  have parts (l : Nat) : (lab :: us).count l = [lab].count l + us.count l := by
    rw [← List.count_append]
    rfl
  refine ⟨fun l => ?_, fun old l next => ?_⟩
  · have here := counted.uses l
    rw [shrunk]
    rw [parts] at here
    omega
  · have here := counted.equated old l next
    rw [shrunk]
    rw [parts] at here
    omega

theorem Counted.equateLab {old new : Nat} (counted : Counted outer us t) :
    Counted outer us (t.equateLab old new) := by
  unfold Symbols.equateLab
  split
  · have grown (l : Nat) : t.ref l ≤ if l = new then t.ref l + 1 else t.ref l := by
      split <;> omega
    refine ⟨fun l => (counted.uses l).trans (grown l), fun m l next => ?_⟩
    change (if m = old then some new else t.equated.to? m) = some l at next
    change us.count l + outer l < if l = new then t.ref l + 1 else t.ref l
    split at next
    · cases next
      have here := counted.uses new
      rw [if_pos rfl]
      omega
    · exact (counted.equated m l next).trans_le (grown l)
  · exact counted

theorem codeUses_cons (c : Code I) (code : List (Code I)) :
    codeUses (c :: code) = c.nodes.flatMap uses ++ codeUses code :=
  List.flatMap_cons

theorem counted_absorb (lab : Nat) (counted : Counted outer (codeUses code) t) :
    Counted outer (codeUses (absorb lab code t).1) (absorb lab code t).2 := by
  induction code generalizing t with
  | nil => exact counted
  | cons c prev ih =>
    cases c with
    | point => exact ih counted
    | start | gen | jump | switch | head => exact counted
    | label m =>
      unfold absorb
      split
      · exact counted
      · exact ih counted.equateLab

theorem counted_dropJumps (counted : Counted outer (codeUses code) t) :
    Counted outer (codeUses (dropJumps lab code t).1) (dropJumps lab code t).2 := by
  induction code generalizing t with
  | nil => exact counted
  | cons c prev ih =>
    cases c with
    | point | label => exact ih counted
    | start | gen | switch | head => exact counted
    | jump l =>
      unfold dropJumps
      split
      · rename_i same
        subst same
        exact ih counted.subRef
      · exact counted

theorem walk_uses (e : Emit I) : e.walk.uses.Perm e.uses := by
  unfold Emit.walk Emit.uses
  split
  · exact .refl _
  · change (codeUses (.gen e.forest.reverse :: e.code) ++ []).Perm _
    rw [List.append_nil, codeUses_cons]
    exact (((List.reverse_perm e.forest).flatMap_right _).append_right _).trans
      List.perm_append_comm

theorem Counted.walk (counted : Counted outer e.uses e.symbols) :
    Counted outer (codeUses e.walk.code) e.walk.symbols := by
  have walked := counted.perm (walk_uses e).symm
  rw [walk_symbols]
  unfold Emit.uses at walked
  rw [walk_forest, List.flatMap_nil, List.append_nil] at walked
  exact walked

theorem Counted.addRefs (counted : Counted outer us t) (labels : List Nat) :
    Counted outer (labels ++ us) (labels.foldl Symbols.addRef t) := by
  induction labels generalizing us t with
  | nil => exact counted
  | cons l labels ih => exact (ih (counted.addRef l)).perm List.perm_middle

theorem Counted.branch (counted : Counted outer e.uses e.symbols) :
    Counted outer (e.branch lab).uses (e.branch lab).symbols := by
  have empty := walk_forest e
  have pending : Counted (fun l => [lab].count l + outer l) (codeUses e.walk.code)
    (e.walk.symbols.addRef lab) :=
    counted_append.mp ((counted.walk.addRef lab).perm (List.perm_append_singleton ..).symm)
  have absorbed := (counted_append.mpr (counted_absorb lab pending)).perm
    (List.perm_append_singleton ..)
  unfold Emit.branch
  dsimp only
  split
  · unfold Emit.uses
    dsimp only
    rw [empty, List.flatMap_nil, List.append_nil]
    exact absorbed.subRef
  · unfold Emit.uses
    dsimp only
    rw [empty, List.flatMap_nil, List.append_nil, codeUses_cons]
    exact absorbed

theorem Counted.defineLab (counted : Counted outer e.uses e.symbols) :
    Counted outer (e.defineLab lab).uses (e.defineLab lab).symbols := by
  have empty := walk_forest e
  unfold Emit.defineLab Emit.uses
  dsimp only
  rw [empty, List.flatMap_nil, List.append_nil, codeUses_cons]
  exact counted_dropJumps counted.walk

theorem Counted.call (counted : Counted outer e.uses e.symbols) (c : Call I) :
    Counted outer (c.emit e).uses (c.emit e).symbols := by
  cases c with
  | list i labels =>
    refine (counted.addRefs labels).perm ?_
    unfold Emit.uses
    exact (List.perm_append_comm_assoc ..)
  | jumpnode lab =>
    refine (counted.addRef lab).perm ?_
    exact List.perm_middle.symm
  | labelnode lab =>
    unfold Call.emit Emit.labelnode
    dsimp only
    split
    · exact counted.equateLab
    · exact counted
  | walk => exact (walk_symbols e).symm ▸ counted.perm (walk_uses e).symm
  | point => exact counted
  | branch lab => exact counted.branch
  | defineLab lab => exact counted.defineLab
  | switch table labels =>
    have walked := counted.walk
    unfold Call.emit Emit.uses
    dsimp only
    rw [walk_forest, List.flatMap_nil, List.append_nil, codeUses_cons]
    exact walked

end

end LC3Tools.CodeList
