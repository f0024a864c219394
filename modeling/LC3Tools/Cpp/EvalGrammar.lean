import LC3Tools.Cpp.EvalValue
import LC3Tools.Settles

/-! What the evaluation of `#if` accepts: nothing but expressions. -/
namespace LC3Tools.Cpp

/-- What waits on the stacks behind the tokens `ts`, where an operand is expected. A plus leaves no
operator; `p` says whether one is in front. -/
inductive Waits (w : Nat) (env : Env) : Bool → List (Value w) → List TokType → List Token → Prop
  | start : Waits w env false [] [.END] []
  | paren {p vals ops ts l} (below : Waits w env p vals ops ts) (open_ : l.type = .LP) :
    Waits w env false vals (.LP :: ops) (ts ++ [l])
  | plus {p vals ops ts t} (below : Waits w env p vals ops ts) (is : t.type = .PLUS) :
    Waits w env true vals ops (ts ++ [t])
  | unary {p vals ops ts t} (below : Waits w env p vals ops ts)
    (is_unary : Expr.isUnary t.type = true) (other : t.type ≠ .PLUS) :
    Waits w env false vals (waiting t.type ops) (ts ++ [t])
  | binary {vals ops ts} {e : Expr} {t} (below : Waits w env false vals ops ts)
    (grouped : e.Grouped)
    (is_binary : Expr.isBinary t.type = true) (high : (priority t.type).pri < e.prio)
    (low : topPri ops ≤ (priority t.type).pri) :
    Waits w env false (e.value w env :: vals) (t.type :: ops) (ts ++ (e.tokens ++ [t]))
  | quest {vals ops ts} {c : Expr} {q} (below : Waits w env false vals ops ts) (grouped : c.Grouped)
    (is : q.type = .QUEST)
    (high : 5 < c.prio) (low : topPri ops ≤ 5) :
      Waits w env false (c.value w env :: vals) (.QUEST :: ops) (ts ++ (c.tokens ++ [q]))
  | colon {vals ops ts} {c a : Expr} {q k} (below : Waits w env false vals ops ts)
    (grouped : c.Grouped ∧ a.Grouped)
    (is : q.type = .QUEST ∧ k.type = .COLON) (high : 5 < c.prio ∧ 5 < a.prio)
    (low : topPri ops ≤ 5) :
    Waits w env false (a.value w env :: c.value w env :: vals) (.COLON :: .QUEST :: ops)
      (ts ++ (c.tokens ++ q :: (a.tokens ++ [k])))

/-- An expression has been read behind what waits. -/
def Ended (w : Nat) (env : Env) (least : Nat) (vals : List (Value w)) (ops : List TokType)
    (ts : List Token) : Prop :=
  ∃ (e : Expr) (vals' : List (Value w)) (ts' : List Token), Waits w env false vals' ops ts' ∧
    e.Grouped ∧ least ≤ e.prio ∧
    topPri ops ≤ e.prio ∧ vals = e.value w env :: vals' ∧ ts = ts' ++ e.tokens

section
variable {w : Nat} {env : Env} {vals : List (Value w)} {ops : List TokType} {bad : Bool} {pri : Nat}
  {rtype : ValType} {ts : List Token}
  {p : Bool}

theorem waiting_cons {t : TokType} (is_unary : Expr.isUnary t = true) (other : t ≠ .PLUS) :
    ∃ oper, (priority oper).ctype = .UNARY ∧ (priority oper).pri = 16 ∧
      (∀ ops, waiting t ops = oper :: ops) ∧
      ∀ v : Value w, Expr.signed t v = operate oper v v := by
  cases t with
  | PLUS => exact absurd rfl other
  | MINUS => exact ⟨.UMINUS, rfl, rfl, fun _ => rfl, fun _ => rfl⟩
  | DEFINED => exact ⟨.DEFINED, rfl, rfl, fun _ => rfl, fun _ => rfl⟩
  | TILDE => exact ⟨.TILDE, rfl, rfl, fun _ => rfl, fun _ => rfl⟩
  | NOT => exact ⟨.NOT, rfl, rfl, fun _ => rfl, fun _ => rfl⟩
  | _ => exact absurd is_unary (by decide)

theorem Waits.top_le (below : Waits w env p vals ops ts) : topPri ops ≤ 16 := by
  induction below with
  | start => exact Nat.zero_le _
  | paren => exact (by decide : 3 ≤ 16)
  | plus below is ih => exact ih
  | unary below is_unary other =>
    obtain ⟨oper, -, high, is, -⟩ := waiting_cons (w := w) is_unary other
    rw [is, topPri, high]
  | binary below grouped is_binary => exact Nat.le_succ_of_le (binary_pri is_binary).2.1
  | quest => exact (by decide : 5 ≤ 16)
  | colon => exact (by decide : 5 ≤ 16)

theorem Waits.operand (below : Waits w env p vals ops ts) {e : Expr} (grouped : e.Grouped)
    (high : 16 ≤ e.prio) :
    Ended w env 16 (e.value w env :: vals) ops (ts ++ e.tokens) := by
  have top := below.top_le.trans high
  cases p with
  | false => exact ⟨e, vals, ts, below, grouped, high, top, rfl, rfl⟩
  | true =>
    generalize plus_ : true = p at below
    induction below generalizing e with
    | plus below is ih =>
      rename_i p vals ops ts t
      have signed_grouped : (Expr.unary t e).Grouped := ⟨is ▸ rfl, high, grouped⟩
      have same : (Expr.unary t e).value w env = e.value w env := by
        rw [Expr.value, is]
        rfl
      rw [← same, List.append_assoc]
      cases p with
      | false =>
        exact ⟨.unary t e, vals, ts, below, signed_grouped, Nat.le_refl _, below.top_le, rfl, rfl⟩
      | true => exact ih signed_grouped (Nat.le_refl _) below.top_le rfl
    | _ => cases plus_

theorem evalop_unknown {t : TokType} (unknown : known t = false) (other : t ≠ .COLON)
    (above : pri < (priority t).pri) {s : Stacks w} :
    evalop pri rtype vals (t :: ops) bad ≠ .ok s := by
  intro ran
  rw [evalop.eq_def] at ran
  simp only [if_pos above] at ran
  cases found : operands t vals with
  | none =>
    rw [found] at ran
    cases ran
  | some taken =>
    rw [found] at ran
    simp only [if_neg other, unknown, Bool.false_eq_true, if_false] at ran
    split at ran <;> cases ran

theorem evalop_ended (below : Waits w env false vals ops ts) {e : Expr} (grouped : e.Grouped)
    (top : topPri ops ≤ e.prio)
    (high : pri < e.prio) {s : Stacks w}
    (ran : evalop pri rtype (e.value w env :: vals) ops bad = .ok s) :
    Ended w env (pri + 1) s.vals s.ops (ts ++ e.tokens) ∧ topPri s.ops ≤ pri := by
  generalize count : ops.length = n
  induction n using Nat.strongRecOn generalizing e vals ops ts rtype with
  | _ n ih =>
    by_cases low : topPri ops ≤ pri
    · rw [evalop_stops low] at ran
      obtain rfl := Except.ok.inj ran
      exact ⟨⟨e, vals, ts, below, grouped, high, top, rfl, rfl⟩, low⟩
    have above := Nat.lt_of_not_le low
    cases below with
    | start => exact absurd (Nat.zero_le _) low
    | paren below open_ => exact absurd ran (evalop_unknown rfl (by decide) above)
    | unary below is_unary other =>
      rename_i p ops ts t
      obtain ⟨oper, is_oper, sixteen, waits, signs⟩ := waiting_cons (w := w) is_unary other
      rw [waits] at ran count above top
      rw [topPri, sixteen] at above top
      have value : (Expr.unary t e).value w env = operate oper (e.value w env) (e.value w env) :=
        signs _
      rw [evalop_unary is_oper above, ← value] at ran
      obtain ⟨e', vals', ts', below', grouped', high', top', is_vals, is_ts⟩ :=
        below.operand (e := .unary t e) ⟨is_unary, top, grouped⟩ (Nat.le_refl _)
      have whole := ih _ (by rw [← count]; exact Nat.lt_succ_self _) below' grouped' top'
        (Nat.lt_of_lt_of_le above high') (is_vals ▸ ran) rfl
      rw [← is_ts] at whole
      rwa [List.append_assoc]
    | binary below grouped₁ is_binary high₁ low₁ =>
      rename_i vals ops ts e₁ t
      rw [evalop_binary is_binary above] at ran
      have whole := ih _ (by rw [← count]; exact Nat.lt_succ_self _) below (e := .binary e₁ t e)
        ⟨is_binary, high₁, top, grouped₁, grouped⟩
        low₁ above ran rfl
      simpa only [Expr.tokens, List.append_assoc, List.cons_append, List.nil_append] using whole
    | quest below grouped₁ is high₁ low₁ => exact absurd ran (evalop_unknown rfl (by decide) above)
    | colon below grouped₁ is high₁ low₁ =>
      rename_i vals ops ts c a q k
      rw [evalop_cond above] at ran
      have whole := ih _ (by rw [← count]; exact Nat.lt_succ_of_lt (Nat.lt_succ_self _)) below
        (e := .cond c q a k e)
        ⟨is, ⟨high₁.1, high₁.2, top⟩, grouped₁.1, grouped₁.2, grouped⟩ low₁ above ran rfl
      simpa only [Expr.tokens, List.append_assoc, List.cons_append, List.nil_append] using whole

/-- Stacks that no expression comes from any more: there is a comma, or a `:` that has no `?`. -/
def Astray (ops : List TokType) : Prop := .COMMA ∈ ops ∨ ∃ xs ys, ops = xs ++ .COLON :: ys ∧
    ys.head? ≠ some .QUEST

def Lost (s : Stacks w) : Prop := s.bad = true ∨ Astray s.ops

theorem Astray.cons {oper : TokType} (astray : Astray ops) : Astray (oper :: ops) := by
  rcases astray with comma | ⟨xs, ys, is, alone⟩
  · exact .inl (List.mem_cons_of_mem _ comma)
  · exact .inr ⟨oper :: xs, ys, by rw [is, List.cons_append], alone⟩

theorem Astray.tail {oper : TokType} (astray : Astray (oper :: ops)) (comma : oper ≠ .COMMA)
    (colon : oper = .COLON → ops.head? = some .QUEST) :
    Astray ops := by
  rcases astray with mem | ⟨xs, ys, is, alone⟩
  · exact .inl ((List.mem_cons.mp mem).resolve_left comma.symm)
  · cases xs with
    | nil =>
      obtain ⟨rfl, rfl⟩ := List.cons.inj is
      exact absurd (colon rfl) alone
    | cons x xs => exact .inr ⟨xs, ys, (List.cons.inj is).2, alone⟩

theorem not_astray_END : ¬ Astray [.END] := by
  rintro (comma | ⟨xs, ys, is, -⟩)
  · exact absurd comma (by decide)
  · have mem : TokType.COLON ∈ [TokType.END] := is ▸ List.mem_append_right _ (List.mem_cons_self ..)
    exact absurd mem (by decide)

theorem evalop_lost {s : Stacks w} (ran : evalop pri rtype vals ops bad = .ok s)
    (lost : bad = true ∨ Astray ops) : Lost s := by
  fun_induction evalop pri rtype vals ops bad with
  | case1 rtype vals bad =>
    obtain rfl := Except.ok.inj ran
    exact lost
  | case2 => cases ran
  | case3 => cases ran
  | case4 rtype vals bad v1 v2 ops c vals' v above found ih =>
    exact ih ran (lost.imp id fun astray => (astray.tail (by decide) fun _ => rfl).tail
      (by decide) nofun)
  | case5 rtype vals bad v1 v2 vals' ops alone above found ih => exact ih ran (.inl rfl)
  | case6 rtype vals bad oper ops above v1 v2 vals' found other is_known v ih =>
    have comma : oper ≠ .COMMA := by
      rintro rfl
      cases is_known
    exact ih ran (lost.imp id fun astray => astray.tail comma fun colon => absurd colon other)
  | case7 => cases ran
  | case8 => cases ran
  | case9 rtype vals bad oper ops low =>
    obtain rfl := Except.ok.inj ran
    exact lost

def IsBinary (t : TokType) : Prop := Expr.isBinary t = true ∨ t = .QUEST ∨ t = .COLON ∨ t = .COMMA

instance (t : TokType) : Decidable (IsBinary t) := inferInstanceAs (Decidable (_ ∨ _))

theorem not_blank {t : Token} (is : Expr.isOperand t.type = true ∨ Expr.isUnary t.type = true ∨
    IsBinary t.type ∨ t.type ∈ [.LP, .RP]) :
    isBlank t = false := by
  unfold isBlank
  revert is
  generalize t.type = ty
  cases ty <;> decide

/-- What a token does where it is accepted. -/
inductive Accepts (env : Env) (t : Token) : Bool × Stacks w → Bool × Stacks w → Prop
  | blank {r} (is : isBlank t = true) : Accepts env t r r
  | operand {s} (is : Expr.isOperand t.type = true) :
    Accepts env t (false, s)
      (true, { s with vals := (tokval w env t).1 :: s.vals, bad := s.bad || (tokval w env t).2 })
  | sign {s} (is : Expr.isUnary t.type = true) :
    Accepts env t (false, s) (false, { s with ops := waiting t.type s.ops })
  | binary {s s'} (is : IsBinary t.type)
    (ran : evalop (priority t.type).pri .SGN s.vals s.ops s.bad = .ok s') :
      Accepts env t (true, s) (false, { s' with ops := t.type :: s'.ops })
  | opening {s} (is : t.type = .LP) :
    Accepts env t (false, s) (false, { s with ops := .LP :: s.ops })
  | closing {s s' ops} (is : t.type = .RP) (ran : evalop 3 .SGN s.vals s.ops s.bad = .ok s')
    (top : s'.ops = .LP :: ops) :
    Accepts env t (true, s) (true, { s' with ops })

theorem pushOp_ok {oper : TokType} {s s' : Stacks w} (ran : pushOp oper s = .ok s') :
    s' = { s with ops := oper :: s.ops } := by
  unfold pushOp at ran
  split at ran
  · exact (Except.ok.inj ran).symm
  · cases ran

theorem binary_ok {t : Token} {s : Stacks w} {r : Bool × Stacks w} (ran : binary t.type s = .ok r)
    (is : IsBinary t.type) : Accepts env t (true, s) r := by
  unfold binary at ran
  obtain ⟨s', evaluated, rest⟩ := ok_of_bind ran
  obtain ⟨s'', pushed, last⟩ := ok_of_bind rest
  obtain rfl := Except.ok.inj last
  rw [pushOp_ok pushed]
  exact .binary is evaluated

theorem pushed_ok {oper : TokType} {s : Stacks w} {r : Bool × Stacks w}
    (ran : (pushOp oper s).map (fun s => (false, s)) = .ok r) :
    r = (false, { s with ops := oper :: s.ops }) := by
  cases pushed : pushOp oper s with
  | error e =>
    rw [pushed] at ran
    cases ran
  | ok s' =>
    rw [pushed] at ran
    rw [← Except.ok.inj ran, pushOp_ok pushed]

theorem sign_ok {t : Token} {oper : TokType} {s : Stacks w} {r : Bool × Stacks w}
    (is : Expr.isUnary t.type = true)
    (waits : waiting t.type s.ops = oper :: s.ops)
    (ran : (pushOp oper s).map (fun s => (false, s)) = .ok r) : Accepts env t (false, s) r := by
  rw [pushed_ok ran, ← waits]
  exact .sign is

theorem plus_ok {t : Token} {s : Stacks w} {r : Bool × Stacks w} (is : t.type = .PLUS)
    (ran : Except.ok (false, s) = (.ok r : Except Fault _)) :
    Accepts env t (false, s) r := by
  have same : waiting t.type s.ops = s.ops := by
    rw [is]
    rfl
  have accepts : Accepts env t (false, s) (false, { s with ops := waiting t.type s.ops }) :=
    .sign (by rw [is]; rfl)
  rw [same] at accepts
  rwa [← Except.ok.inj ran]

theorem operand_ok {t : Token} {s : Stacks w} {r : Bool × Stacks w}
    (is : Expr.isOperand t.type = true)
    (ran : (if s.vals.length = NSTAK then .error .stackOverflow
      else .ok (true, { s with vals := (tokval w env t).1 :: s.vals, bad :=
        s.bad || (tokval w env t).2 })) = (.ok r : Except Fault _)) :
    Accepts env t (false, s) r := by
  split at ran
  · cases ran
  · rw [← Except.ok.inj ran]
    exact .operand is

theorem closing_ok {t : Token} {s : Stacks w} {r : Bool × Stacks w} (is : t.type = .RP)
    (ran : evalToken env (true, s) t = .ok r) :
    Accepts env t (true, s) r := by
  rw [evalToken, is] at ran
  change (evalop 3 .SGN s.vals s.ops s.bad >>= _) = _ at ran
  obtain ⟨⟨vals', ops', bad'⟩, evaluated, rest⟩ := ok_of_bind ran
  cases ops' with
  | nil => cases rest
  | cons oper ops' =>
    cases oper with
    | LP =>
      obtain rfl := Except.ok.inj rest
      exact .closing is evaluated rfl
    | _ => cases rest

theorem evalToken_ok {t : Token} {r r' : Bool × Stacks w} (ran : evalToken env r t = .ok r') :
    Accepts env t r r' := by
  obtain ⟨rand, s⟩ := r
  have whole := ran
  have blank {is : TokType} (same : t.type = is) (either : is = .WS ∨ is = .NL) :
    isBlank t = true := by
    rcases either with rfl | rfl <;> simp [isBlank, same]
  unfold evalToken at ran
  cases rand with
  | false =>
    split at ran
    all_goals rename_i is
    all_goals first
      | exact operand_ok (by rw [is]; rfl) ran
      | exact plus_ok is ran
      | exact sign_ok (by rw [is]; rfl) (by rw [is]; rfl) ran
      | exact pushed_ok ran ▸ .opening is
      | exact Except.ok.inj ran ▸ .blank (blank is (by decide))
      | cases ran
  | true =>
    split at ran
    all_goals rename_i is
    all_goals first
      | exact Except.ok.inj ran ▸ .blank (blank is (by decide))
      | exact closing_ok is whole
      | exact binary_ok ran (by rw [is]; decide)
      | exact binary_ok (by rw [is]; exact ran) (by rw [is]; decide)
      | cases ran

theorem Accepts.lost {t : Token} {r r' : Bool × Stacks w} (accepts : Accepts env t r r')
    (lost : Lost r.2) : Lost r'.2 := by
  cases accepts with
  | blank is => exact lost
  | operand is => exact lost.imp (fun bad => Bool.or_eq_true_iff.mpr (.inl bad)) id
  | sign is =>
    refine lost.imp id fun astray => ?_
    by_cases plus_ : t.type = .PLUS
    · rw [plus_]
      exact astray
    · obtain ⟨oper, -, -, waits, -⟩ := waiting_cons (w := w) is plus_
      rw [waits]
      exact astray.cons
  | binary is ran => exact (evalop_lost ran lost).imp id Astray.cons
  | opening is => exact lost.imp id Astray.cons
  | closing is ran top =>
    exact (evalop_lost ran lost).imp id fun astray => (top ▸ astray).tail (by decide) nofun

/-- How far the evaluation has come behind the tokens `ts`. -/
def Reached (env : Env) (r : Bool × Stacks w) (ts : List Token) : Prop :=
  Lost r.2 ∨ (r.1 = true ∧ Ended w env 16 r.2.vals r.2.ops ts) ∨
    (r.1 = false ∧ ∃ p, Waits w env p r.2.vals r.2.ops ts)

theorem waiting_ne {t oper : TokType} {ops' : List TokType} (is_unary : Expr.isUnary t = true)
    (other : t ≠ .PLUS)
    (no : (priority oper).ctype ≠ .UNARY) : waiting t ops ≠ oper :: ops' := by
  obtain ⟨oper', is_oper, -, waits, -⟩ := waiting_cons (w := 1) is_unary other
  rw [waits]
  intro is_ops
  exact no ((List.cons.inj is_ops).1 ▸ is_oper)

theorem Waits.asked (below : Waits w env false vals (.QUEST :: ops) ts) :
    ∃ (c : Expr) (q : Token) (vals' : List (Value w)) (ts' : List Token),
      Waits w env false vals' ops ts' ∧ c.Grouped ∧ q.type = .QUEST ∧
      5 < c.prio ∧ topPri ops ≤ 5 ∧ vals = c.value w env :: vals' ∧
        ts = ts' ++ (c.tokens ++ [q]) := by
  generalize is_ops : TokType.QUEST :: ops = ops' at below
  cases below with
  | unary below is_unary other => exact absurd is_ops.symm (waiting_ne is_unary other (by decide))
  | binary below grouped is_binary =>
    rw [← (List.cons.inj is_ops).1] at is_binary
    cases is_binary
  | quest below grouped is high low =>
    obtain ⟨-, rfl⟩ := List.cons.inj is_ops
    exact ⟨_, _, _, _, below, grouped, is, high, low, rfl, rfl⟩
  | _ => cases is_ops

theorem Waits.opened (below : Waits w env false vals (.LP :: ops) ts) :
    ∃ p l ts', Waits w env p vals ops ts' ∧ l.type = .LP ∧ ts = ts' ++ [l] := by
  generalize is_ops : TokType.LP :: ops = ops' at below
  cases below with
  | unary below is_unary other => exact absurd is_ops.symm (waiting_ne is_unary other (by decide))
  | binary below grouped is_binary =>
    rw [← (List.cons.inj is_ops).1] at is_binary
    cases is_binary
  | paren below open_ =>
    obtain ⟨-, rfl⟩ := List.cons.inj is_ops
    exact ⟨_, _, _, below, open_, rfl⟩
  | _ => cases is_ops

theorem Waits.started (below : Waits w env false [] [.END] ts) : ts = [] := by
  generalize is_ops : [TokType.END] = ops' at below
  cases below with
  | start => rfl
  | unary below is_unary other => exact absurd is_ops.symm (waiting_ne is_unary other (by decide))
  | _ => cases is_ops

theorem binary_reached {t : Token} {s s' : Stacks w} (is : IsBinary t.type)
    (ran : evalop (priority t.type).pri .SGN s.vals s.ops s.bad = .ok s')
    (ended : Ended w env 16 s.vals s.ops ts) :
    Reached env (false, { s' with ops := t.type :: s'.ops }) (ts ++ [t]) := by
  obtain ⟨e, vals, ts', below, grouped, high, top, is_vals, rfl⟩ := ended
  have small : (priority t.type).pri < 16 := by
    rcases is with is | is | is | is
    · exact Nat.lt_succ_of_le (binary_pri is).2.1
    · rw [is]; decide
    · rw [is]; decide
    · rw [is]; decide
  rw [is_vals] at ran
  obtain ⟨⟨e', vals', ts'', below', grouped', high', top', is_vals', is_ts⟩, low⟩ :=
    evalop_ended below grouped top (Nat.lt_of_lt_of_le small high) ran
  rw [is_ts, List.append_assoc]
  rcases is with is | is | is | is
  · refine .inr (.inr ⟨rfl, false, ?_⟩)
    change Waits w env false s'.vals _ _
    rw [is_vals']
    exact .binary below' grouped' is high' low
  · rw [is] at high' low ⊢
    refine .inr (.inr ⟨rfl, false, ?_⟩)
    change Waits w env false s'.vals _ _
    rw [is_vals']
    exact .quest below' grouped' is high' low
  · rw [is] at high' low ⊢
    by_cases asked : s'.ops.head? = some .QUEST
    · obtain ⟨ops, is_ops⟩ : ∃ ops, s'.ops = .QUEST :: ops := List.head?_eq_some_iff.mp asked
      rw [is_ops] at below' ⊢
      obtain ⟨c, q, vals₀, ts₀, waits, grouped_c, is_q, high_c, low_c, rfl, rfl⟩ := below'.asked
      refine .inr (.inr ⟨rfl, false, ?_⟩)
      change Waits w env false s'.vals _ _
      rw [is_vals']
      have colon := Waits.colon waits ⟨grouped_c, grouped'⟩ ⟨is_q, is⟩ ⟨high_c, high'⟩ low_c
      simpa only [List.append_assoc, List.cons_append, List.nil_append] using colon
    · exact .inl (.inr (.inr ⟨[], s'.ops, rfl, asked⟩))
  · rw [is]
    exact .inl (.inr (.inl (List.mem_cons_self ..)))

theorem Accepts.reached {t : Token} {r r' : Bool × Stacks w} (accepts : Accepts env t r r')
    (reached : Reached env r ts) :
    Reached env r' (ts ++ [t].filter fun t => !isBlank t) := by
  rcases reached with lost | state
  · exact .inl (accepts.lost lost)
  have single (other : Expr.isOperand t.type = true ∨ Expr.isUnary t.type = true ∨ IsBinary t.type ∨
    t.type ∈ [.LP, .RP]) :
      ([t].filter fun t => !isBlank t) = [t] := by
    have shown := not_blank other
    simp [shown]
  cases accepts with
  | blank is =>
    rw [List.filter_cons_of_neg (by simp [is]), List.filter_nil, List.append_nil]
    exact .inr state
  | operand is =>
    rcases state with ⟨never, -⟩ | ⟨-, p, waits⟩
    · cases never
    rw [single (.inl is)]
    exact .inr (.inl ⟨rfl, waits.operand (e := .operand t) is (by decide : 16 ≤ 17)⟩)
  | sign is =>
    rcases state with ⟨never, -⟩ | ⟨-, p, waits⟩
    · cases never
    rw [single (.inr (.inl is))]
    by_cases plus_ : t.type = .PLUS
    · have plus := Waits.plus waits plus_
      refine .inr (.inr ⟨rfl, true, ?_⟩)
      rw [plus_]
      exact plus
    · exact .inr (.inr ⟨rfl, false, .unary waits is plus_⟩)
  | binary is ran =>
    rcases state with ⟨-, ended⟩ | ⟨never, -⟩
    · rw [single (.inr (.inr (.inl is)))]
      exact binary_reached is ran ended
    · cases never
  | opening is =>
    rcases state with ⟨never, -⟩ | ⟨-, p, waits⟩
    · cases never
    rw [single (.inr (.inr (.inr (by rw [is]; decide))))]
    exact .inr (.inr ⟨rfl, false, .paren waits is⟩)
  | closing is ran top =>
    rcases state with ⟨-, e, vals, ts', below, grouped, high, top', is_vals, rfl⟩ | ⟨never, -⟩
    · rw [is_vals] at ran
      obtain ⟨⟨e', vals', ts'', below', grouped', high', -, is_vals', is_ts⟩, -⟩ :=
        evalop_ended below grouped top' (Nat.lt_of_lt_of_le (by decide) high) ran
      rw [top] at below'
      obtain ⟨p, l, ts₀, waits, open_, rfl⟩ := below'.opened
      have whole := waits.operand (e := .paren l t e') ⟨open_, is, grouped'⟩ (by decide : 16 ≤ 17)
      rw [single (.inr (.inr (.inr (by rw [is]; decide)))), is_ts]
      refine .inr (.inl ⟨rfl, ?_⟩)
      dsimp only
      rw [is_vals']
      simpa only [Expr.tokens, Expr.value, List.append_assoc, List.cons_append, List.nil_append]
        using whole
    · cases never

theorem evalRow_reached {row : List Token} {r r' : Bool × Stacks w}
    (ran : evalRow env r row = .ok r') (reached : Reached env r ts) :
    Reached env r' (ts ++ row.filter fun t => !isBlank t) := by
  induction row generalizing r ts with
  | nil =>
    obtain rfl := Except.ok.inj ran
    rwa [List.filter_nil, List.append_nil]
  | cons t row ih =>
    rw [evalRow_cons] at ran
    obtain ⟨next, first, rest⟩ := ok_of_bind ran
    have later := ih rest ((evalToken_ok first).reached reached)
    rwa [List.append_assoc, ← List.filter_append] at later

/-- The operators that `evalop` warns of come from the row. -/
def FromRow (row : List Token) (ops : List TokType) : Prop :=
  ∀ o ∈ ops, o ∈ [TokType.LP, .RP, .COMMA] → ∃ t ∈ row, t.type = .LP ∨ t.type = .COMMA

theorem evalop_sublist {s : Stacks w} (ran : evalop pri rtype vals ops bad = .ok s) :
    s.ops.Sublist ops := by
  fun_induction evalop pri rtype vals ops bad with
  | case1 | case9 =>
    obtain rfl := Except.ok.inj ran
    exact .refl _
  | case4 rtype vals bad v1 v2 ops c vals' v above found ih => exact ((ih ran).cons _).cons _
  | case5 rtype vals bad v1 v2 vals' ops alone above found ih => exact (ih ran).cons _
  | case6 rtype vals bad oper ops above v1 v2 vals' found other is_known v ih =>
    exact (ih ran).cons _
  | _ => cases ran

theorem evalop_warning
    (ran : evalop pri rtype vals ops bad = (.error (.warning reported) : Except Fault (Stacks w))) :
    ∃ o ∈ ops, o ∈ [TokType.LP, .RP, .COMMA] := by
  fun_induction evalop pri rtype vals ops bad with
  | case4 rtype vals bad v1 v2 ops c vals' v above found ih =>
    obtain ⟨o, inside, spare⟩ := ih ran
    exact ⟨o, List.mem_cons_of_mem _ (List.mem_cons_of_mem _ inside), spare⟩
  | case5 rtype vals bad v1 v2 vals' ops alone above found ih =>
    obtain ⟨o, inside, spare⟩ := ih ran
    exact ⟨o, List.mem_cons_of_mem _ inside, spare⟩
  | case6 rtype vals bad oper ops above v1 v2 vals' found other is_known v ih =>
    obtain ⟨o, inside, spare⟩ := ih ran
    exact ⟨o, List.mem_cons_of_mem _ inside, spare⟩
  | case8 rtype vals bad oper ops above v1 v2 vals' found other unknown valued =>
    refine ⟨oper, List.mem_cons_self .., ?_⟩
    have raised : 0 < (priority oper).pri := Nat.zero_lt_of_lt above
    clear ran found other above
    revert unknown valued raised
    cases oper <;> decide
  | _ => cases ran

theorem FromRow.sublist {row : List Token} (from_row : FromRow row ops)
    (sub : List.Sublist ops' ops) : FromRow row ops' :=
  fun o inside => from_row o (sub.subset inside)

theorem FromRow.cons {row : List Token} {t : Token} (from_row : FromRow row ops) (inside : t ∈ row)
    (pushed : oper ∈ [TokType.LP, .RP, .COMMA] → oper = t.type ∧ oper ≠ .RP) :
      FromRow row (oper :: ops) := by
  intro o among spare
  rcases List.mem_cons.mp among with rfl | among
  · obtain ⟨is, other⟩ := pushed spare
    refine ⟨t, inside, is ▸ ?_⟩
    simpa [other] using spare
  · exact from_row o among spare

theorem Accepts.fromRow {row : List Token} {t : Token} {r r' : Bool × Stacks w}
    (accepts : Accepts env t r r')
    (inside : t ∈ row) (from_row : FromRow row r.2.ops) : FromRow row r'.2.ops := by
  cases accepts with
  | blank is => exact from_row
  | operand is => exact from_row
  | sign is =>
    by_cases plus_ : t.type = .PLUS
    · rw [plus_]
      exact from_row
    · obtain ⟨oper, is_oper, -, waits, -⟩ := waiting_cons (w := w) is plus_
      rw [waits]
      refine from_row.cons inside fun spare => absurd spare ?_
      revert is_oper
      cases oper <;> decide
  | binary is ran =>
    refine (from_row.sublist (evalop_sublist ran)).cons inside fun _ => ⟨rfl, ?_⟩
    intro closes
    rw [closes] at is
    exact absurd is (by decide)
  | opening is => exact from_row.cons inside fun _ => ⟨is.symm, nofun⟩
  | closing is ran top =>
    exact (top ▸ from_row.sublist (evalop_sublist ran)).sublist (List.sublist_cons_self ..)

theorem binary_warning {s : Stacks w} (ran : binary oper s = .error (.warning reported)) :
    ∃ o ∈ s.ops, o ∈ [TokType.LP, .RP, .COMMA] := by
  rw [binary] at ran
  cases evaluated : evalop (priority oper).pri .SGN s.vals s.ops s.bad with
  | error fault =>
    rw [evaluated] at ran
    obtain rfl := Except.error.inj ran
    exact evalop_warning evaluated
  | ok s' =>
    rw [evaluated] at ran
    change (pushOp oper s' >>= _) = _ at ran
    rw [pushOp] at ran
    split at ran <;> cases ran

theorem closing_warning {t : Token} {s : Stacks w} (is : t.type = .RP)
    (ran : evalToken env (true, s) t = .error (.warning reported)) :
      ∃ o ∈ s.ops, o ∈ [TokType.LP, .RP, .COMMA] := by
  rw [evalToken, is] at ran
  change (evalop 3 .SGN s.vals s.ops s.bad >>= _) = _ at ran
  cases evaluated : evalop 3 .SGN s.vals s.ops s.bad with
  | error fault =>
    rw [evaluated] at ran
    obtain rfl := Except.error.inj ran
    exact evalop_warning evaluated
  | ok s' =>
    rw [evaluated] at ran
    dsimp only [bind, Except.bind] at ran
    split at ran <;> cases ran

theorem pushed_warning {s : Stacks w} :
    (pushOp oper s).map (fun s => (false, s)) ≠ .error (.warning reported) := by
  rw [pushOp]
  split <;> nofun

theorem evalToken_warning {t : Token} {r : Bool × Stacks w}
    (ran : evalToken env r t = .error (.warning reported)) :
    ∃ o ∈ r.2.ops, o ∈ [TokType.LP, .RP, .COMMA] := by
  obtain ⟨rand, s⟩ := r
  have whole := ran
  unfold evalToken at ran
  cases rand with
  | false =>
    split at ran
    all_goals first
      | exact absurd ran pushed_warning
      | cases ran
      | (split at ran <;> first | cases ran | (split at ran <;> cases ran))
  | true =>
    split at ran
    all_goals rename_i is
    all_goals first
      | exact closing_warning is whole
      | exact binary_warning ran
      | cases ran

theorem evalRow_warning {whole row : List Token} {r : Bool × Stacks w}
    (inside : ∀ t ∈ row, t ∈ whole)
    (from_row : FromRow whole r.2.ops) :
    match evalRow env r row with
    | .ok r' => FromRow whole r'.2.ops
    | .error (.warning _) => ∃ t ∈ whole, t.type = .LP ∨ t.type = .COMMA
    | _ => True := by
  induction row generalizing r with
  | nil => exact from_row
  | cons t row ih =>
    rw [evalRow_cons]
    cases first : evalToken env r t with
    | ok next =>
      exact ih (fun u among => inside u (List.mem_cons_of_mem _ among))
        ((evalToken_ok first).fromRow (inside t (List.mem_cons_self ..)) from_row)
    | error fault =>
      cases fault with
      | warning reported =>
        obtain ⟨o, among, spare⟩ := evalToken_warning first
        exact from_row o among spare
      | _ => trivial

theorem evaluate_warning {row : List Token}
    (warned : evaluate w env row = .error (.warning reported)) :
    ∃ t ∈ row, t.type = .LP ∨ t.type = .COMMA := by
  have start : FromRow row [TokType.END] := by
    intro o among spare
    rw [List.mem_singleton.mp among] at spare
    exact absurd spare (by decide)
  have read : match evalRow env (false, (⟨[], [.END], false⟩ : Stacks w)) row with
      | .ok r => FromRow row r.2.ops
      | .error (.warning _) => ∃ t ∈ row, t.type = .LP ∨ t.type = .COMMA
      | _ => True := evalRow_warning (fun _ => id) start
  rw [evaluate] at warned
  cases ran : evalRow env (false, (⟨[], [.END], false⟩ : Stacks w)) row with
  | error fault =>
    rw [ran] at warned read
    obtain rfl := Except.error.inj warned
    exact read
  | ok r =>
    rw [ran] at warned read
    change (if r.1 then _ else _) = _ at warned
    split at warned
    · cases evaluated : evalop 0 .SGN r.2.vals r.2.ops r.2.bad with
      | error fault =>
        change (evalop 0 .SGN r.2.vals r.2.ops r.2.bad >>= _) = _ at warned
        rw [evaluated] at warned
        obtain rfl := Except.error.inj warned
        obtain ⟨o, among, spare⟩ := evalop_warning evaluated
        exact read o among spare
      | ok s =>
        change (evalop 0 .SGN r.2.vals r.2.ops r.2.bad >>= _) = _ at warned
        rw [evaluated] at warned
        dsimp only [bind, Except.bind] at warned
        split at warned <;> cases warned
    · cases warned

theorem evaluate_accepts {row : List Token} {v : Value w}
    (ran : evaluate w env row = .ok (v, false)) :
    ∃ e : Expr, e.Grouped ∧ (row.filter fun t => !isBlank t) = e.tokens ∧ v = e.value w env := by
  obtain ⟨r, read, rest⟩ := ok_of_bind ran
  split at rest
  · obtain ⟨s, evaluated, last⟩ := ok_of_bind rest
    rename_i operand
    split at last
    · rename_i v' is_vals is_ops
      obtain ⟨rfl, clean⟩ := Prod.mk.inj (Except.ok.inj last)
      have start : Reached env (false, (⟨[], [.END], false⟩ : Stacks w)) [] :=
        .inr (.inr ⟨rfl, false, .start⟩)
      rcases evalRow_reached read start with lost | ⟨-, e, vals, ts, below, grouped, high, top, is,
        is_row⟩ | ⟨never, -⟩
      · rcases evalop_lost evaluated lost with bad | astray
        · rw [bad] at clean
          cases clean
        · exact absurd (is_ops ▸ astray) not_astray_END
      · rw [is] at evaluated
        obtain ⟨⟨e', vals', ts', below', grouped', -, -, is', is_ts⟩, -⟩ :=
          evalop_ended below grouped top (Nat.lt_of_lt_of_le (by decide) high) evaluated
        rw [is_vals] at is'
        obtain ⟨rfl, rfl⟩ := List.cons.inj is'
        rw [is_ops] at below'
        obtain rfl := below'.started
        exact ⟨e', grouped', by rw [List.nil_append] at is_row is_ts; rw [is_row, is_ts], rfl⟩
      · rw [never] at operand
        cases operand
    · cases last
  · cases rest

/-- What is evaluated without an error is an expression and the result its value, or `evalop` has
warned of a `(` or of a `,` and the result is 0. -/
theorem eval_accepts {row : List Token} {v : Value w} (ran : eval w env row = .ok (v, false)) :
    (∃ e : Expr, e.Grouped ∧ (row.filter fun t => !isBlank t) = e.tokens ∧ v = e.value w env) ∨
      (evaluate w env row = .error (.warning false) ∧ v.val = 0 ∧ ∃ t ∈ row, t.type = .LP ∨
        t.type = .COMMA) := by
  rw [eval] at ran
  split at ran
  · rename_i bad warned
    obtain ⟨rfl, rfl⟩ := Prod.mk.inj (Except.ok.inj ran)
    exact .inr ⟨warned, rfl, evaluate_warning warned⟩
  · exact .inl (evaluate_accepts ran)

end

theorem eval_accepts_twoMinuses :
    (∃ e : Expr, e.Grouped ∧ twoMinuses.dropLast = e.tokens ∧
      ⟨6, .SGN⟩ = e.value 64 withoutMacros) ∨
      (evaluate 64 withoutMacros twoMinuses = .error (.warning false) ∧ (6 : BitVec 64) = 0 ∧
        ∃ t ∈ twoMinuses, t.type = .LP ∨ t.type = .COMMA) := by
  have ran : eval 64 withoutMacros twoMinuses = .ok (⟨6, .SGN⟩, false) := rfl
  exact eval_accepts ran

end LC3Tools.Cpp
