import LC3Tools.Cpp.Eval

/-! What value an expression of `#if` has. -/
namespace LC3Tools.Cpp

inductive Expr where
  | operand (t : Token)
  | paren (l r : Token) (e : Expr)
  | unary (t : Token) (e : Expr)
  | binary (e₁ : Expr) (t : Token) (e₂ : Expr)
  | cond (c : Expr) (q : Token) (a : Expr) (k : Token) (b : Expr)

namespace Expr

def tokens : Expr → List Token
  | .operand t => [t]
  | .paren l r e => l :: (e.tokens ++ [r])
  | .unary t e => t :: e.tokens
  | .binary e₁ t e₂ => e₁.tokens ++ t :: e₂.tokens
  | .cond c q a k b => c.tokens ++ q :: (a.tokens ++ k :: b.tokens)

/-- The priority of the operator that comes last. -/
def prio : Expr → Nat
  | .operand _ | .paren .. => 17
  | .unary .. => 16
  | .binary _ t _ => (priority t.type).pri
  | .cond .. => 5

def isOperand : TokType → Bool
  | .NAME | .NAME1 | .NUMBER | .CCON | .STRING => true
  | _ => false

def isUnary : TokType → Bool
  | .DEFINED | .TILDE | .NOT | .PLUS | .MINUS => true
  | _ => false

def isBinary : TokType → Bool
  | .PLUS | .MINUS | .STAR | .AND | .EQ | .NEQ | .LEQ | .GEQ | .LSH | .RSH | .LAND | .LOR | .SLASH
    | .PCT | .LT | .GT | .CIRC | .OR => true
  | _ => false

/-- How an expression is grouped: operators of one priority to the right. -/
def Grouped : Expr → Prop
  | .operand t => isOperand t.type = true
  | .paren l r e => l.type = .LP ∧ r.type = .RP ∧ e.Grouped
  | .unary t e => isUnary t.type = true ∧ 16 ≤ e.prio ∧ e.Grouped
  | .binary e₁ t e₂ =>
    isBinary t.type = true ∧ (priority t.type).pri < e₁.prio ∧ (priority t.type).pri ≤ e₂.prio ∧
      e₁.Grouped ∧ e₂.Grouped
  | .cond c q a k b =>
    (q.type = .QUEST ∧ k.type = .COLON) ∧ (5 < c.prio ∧ 5 < a.prio ∧ 5 ≤ b.prio) ∧ c.Grouped ∧
      a.Grouped ∧ b.Grouped

/-- A sign has an operator of its own, and a plus has none. -/
def signed {w : Nat} (t : TokType) (v : Value w) : Value w :=
  match t with
  | .PLUS => v
  | .MINUS => operate .UMINUS v v
  | t => operate t v v

def value (w : Nat) (env : Env) : Expr → Value w
  | .operand t => (tokval w env t).1
  | .paren _ _ e => e.value w env
  | .unary t e => signed t.type (e.value w env)
  | .binary e₁ t e₂ => operate t.type (e₁.value w env) (e₂.value w env)
  | .cond c _ a _ b => if (c.value w env).val = 0 then b.value w env else a.value w env

/-- Whether one of the operands is reported. -/
def reports (w : Nat) (env : Env) : Expr → Bool
  | .operand t => (tokval w env t).2
  | .paren _ _ e | .unary _ e => e.reports w env
  | .binary e₁ _ e₂ => e₁.reports w env || e₂.reports w env
  | .cond c _ a _ b => c.reports w env || a.reports w env || b.reports w env

/-- How many operators more than before wait at most. -/
def opsNeed : Expr → Nat
  | .operand _ => 0
  | .paren _ _ e => e.opsNeed + 1
  | .unary _ e => e.opsNeed + 1
  | .binary e₁ _ e₂ => max e₁.opsNeed (e₂.opsNeed + 1)
  | .cond c _ a _ b => max c.opsNeed (max (a.opsNeed + 1) (b.opsNeed + 2))

/-- How many values more than before wait at most. -/
def valsNeed : Expr → Nat
  | .operand _ => 1
  | .paren _ _ e | .unary _ e => e.valsNeed
  | .binary e₁ _ e₂ => max e₁.valsNeed (e₂.valsNeed + 1)
  | .cond c _ a _ b => max c.valsNeed (max (a.valsNeed + 1) (b.valsNeed + 2))

end Expr

section
variable {w : Nat} {env : Env} {vals : List (Value w)} {ops : List TokType} {bad : Bool} {pri : Nat}
  {rtype : ValType}

def topPri : List TokType → Nat
  | [] => 0
  | oper :: _ => (priority oper).pri

theorem evalop_stops (low : topPri ops ≤ pri) :
    evalop pri rtype vals ops bad = .ok ⟨vals, ops, bad⟩ := by
  cases ops with
  | nil => rw [evalop]
  | cons oper ops => rw [evalop.eq_def]; exact if_neg (Nat.not_lt.mpr low)

theorem binary_pri {t : TokType} (is_binary : Expr.isBinary t = true) :
    6 ≤ (priority t).pri ∧ (priority t).pri ≤ 15 ∧ (priority t).arity = 2 ∧ t ≠ .COLON ∧
      known t = true := by
  revert is_binary
  cases t <;> decide

theorem evalop_binary {t : TokType} {v1 v2 : Value w} (is_binary : Expr.isBinary t = true)
    (low : pri < (priority t).pri) :
    evalop pri rtype (v2 :: v1 :: vals) (t :: ops) bad = evalop pri (operate t v1 v2).type
      (operate t v1 v2 :: vals) ops bad := by
  obtain ⟨-, -, two, other, is_known⟩ := binary_pri is_binary
  rw [evalop.eq_def]
  simp only [if_pos low, operands, if_pos two, if_neg other, if_pos is_known]

theorem evalop_unary {t : TokType} {v : Value w} (is_unary : (priority t).ctype = .UNARY)
    (low : pri < 16) :
    evalop pri rtype (v :: vals) (t :: ops) bad = evalop pri (operate t v v).type
      (operate t v v :: vals) ops bad := by
  have facts : (priority t).pri = 16 ∧ (priority t).arity ≠ 2 ∧ t ≠ .COLON ∧ known t = true := by
    revert is_unary
    cases t <;> decide
  obtain ⟨high, one, other, is_known⟩ := facts
  have taken : operands t (v :: vals) = some (v, v, vals) := by
    cases vals <;> simp only [operands, if_neg one]
  rw [evalop.eq_def]
  simp only [high, if_pos low, taken, if_neg other, if_pos is_known]

theorem evalop_cond {c a b : Value w} (low : pri < 5) :
    evalop pri rtype (b :: a :: c :: vals) (.COLON :: .QUEST :: ops) bad =
      evalop pri (if c.val = 0 then b else a).type
        ((if c.val = 0 then b else a) :: vals) ops bad := by
  rw [evalop.eq_def]
  exact if_pos low

theorem evalRow_cons {r : Bool × Stacks w} {t : Token} {row : List Token} :
    evalRow env r (t :: row) = evalToken env r t >>= fun r => evalRow env r row := List.foldlM_cons

theorem evalRow_append {r : Bool × Stacks w} {row row' : List Token} :
    evalRow env r (row ++ row') = evalRow env r row >>= fun r => evalRow env r row' :=
      List.foldlM_append

theorem evalToken_operand {t : Token} (is_operand : Expr.isOperand t.type = true)
    (space : vals.length < NSTAK) :
    evalToken env (false, ⟨vals, ops, bad⟩) t = .ok
      (true, ⟨(tokval w env t).1 :: vals, ops, bad || (tokval w env t).2⟩) := by
  have free := Nat.ne_of_lt space
  unfold evalToken
  generalize t.type = ty at is_operand
  cases ty <;> first | exact absurd is_operand (by decide) | simp [free]

theorem pushOp_fits {oper : TokType} (room : ops.length < NSTAK) :
    pushOp oper (⟨vals, ops, bad⟩ : Stacks w) = .ok ⟨vals, oper :: ops, bad⟩ :=
  if_pos room

/-- What waits behind a sign. -/
def waiting (t : TokType) (ops : List TokType) : List TokType :=
  match t with
  | .PLUS => ops
  | .MINUS => .UMINUS :: ops
  | t => t :: ops

theorem evalToken_unary {t : Token} (is_unary : Expr.isUnary t.type = true)
    (room : ops.length < NSTAK) :
    evalToken env (false, ⟨vals, ops, bad⟩) t = .ok (false, ⟨vals, waiting t.type ops, bad⟩) := by
  unfold evalToken
  generalize t.type = ty at is_unary
  cases ty <;> first
    | exact absurd is_unary (by decide)
    | simp [pushOp_fits room, waiting, Except.map]

theorem evalToken_binary {t : Token}
    (is_binary : Expr.isBinary t.type = true ∨ t.type = .QUEST ∨ t.type = .COLON) {s : Stacks w} :
    evalToken env (true, s) t = binary t.type s := by
  unfold evalToken
  generalize t.type = ty at is_binary
  cases ty <;> first | rfl | exact absurd is_binary (by decide)

/-- Stacks that hold an expression: its value is on the stack as soon as its operators are
evaluated. -/
def Holds (env : Env) (e : Expr) (vals : List (Value w)) (ops : List TokType) (bad : Bool)
    (s : Stacks w) : Prop :=
  ∀ pri rtype, pri < e.prio → ∃ rtype', evalop pri rtype s.vals s.ops s.bad =
    evalop pri rtype' (e.value w env :: vals) ops bad

/-- Stacks that an expression is read onto. -/
def Reads (env : Env) (e : Expr) (vals : List (Value w)) (ops : List TokType) (bad : Bool) : Prop :=
  ∃ s, evalRow env (false, ⟨vals, ops, bad⟩) e.tokens = .ok (true, s) ∧
    Holds env e vals ops (bad || e.reports w env) s

theorem Holds.evalop {e : Expr} {s : Stacks w} (holds : Holds env e vals ops bad s)
    (low : topPri ops ≤ pri) (high : pri < e.prio) :
    evalop pri rtype s.vals s.ops s.bad = .ok ⟨e.value w env :: vals, ops, bad⟩ := by
  obtain ⟨rtype', same⟩ := holds pri rtype high
  rw [same, evalop_stops low]

theorem Holds.binary {e : Expr} {t : Token} {s : Stacks w} (holds : Holds env e vals ops bad s)
    (is_binary : Expr.isBinary t.type = true ∨ t.type = .QUEST ∨ t.type = .COLON)
    (low : topPri ops ≤ (priority t.type).pri)
    (high : (priority t.type).pri < e.prio) (room : ops.length < NSTAK) :
    evalToken env (true, s) t = .ok (false, ⟨e.value w env :: vals, t.type :: ops, bad⟩) := by
  rw [evalToken_binary is_binary, Cpp.binary, holds.evalop low high]
  change (pushOp t.type ⟨e.value w env :: vals, ops, bad⟩ >>= fun s => Except.ok (false, s)) = _
  rw [pushOp_fits room]
  rfl

theorem Expr.Grouped.prio_ge {e : Expr} (grouped : e.Grouped) : 5 ≤ e.prio := by
  cases e with
  | operand t => exact (by decide : 5 ≤ 17)
  | paren l r e => exact (by decide : 5 ≤ 17)
  | unary t e => exact (by decide : 5 ≤ 16)
  | binary e₁ t e₂ => exact Nat.le_of_succ_le (binary_pri grouped.1).1
  | cond c q a k b => exact Nat.le_refl 5

theorem reads_operand {t : Token} (is_operand : Expr.isOperand t.type = true)
    (space : vals.length < NSTAK) :
    Reads env (.operand t) vals ops bad := by
  refine ⟨⟨(tokval w env t).1 :: vals, ops, bad || (tokval w env t).2⟩, ?_,
    fun pri rtype _ => ⟨rtype, rfl⟩⟩
  rw [Expr.tokens, evalRow_cons, evalToken_operand is_operand space]
  rfl

theorem reads_paren {l r : Token} {e : Expr} (open_ : l.type = .LP) (close : r.type = .RP)
    (grouped : e.Grouped) (room : ops.length < NSTAK)
    (inner : Reads env e vals (.LP :: ops) bad) : Reads env (.paren l r e) vals ops bad := by
  obtain ⟨s, read, holds⟩ := inner
  refine ⟨⟨e.value w env :: vals, ops, bad || e.reports w env⟩, ?_, fun pri rtype _ => ⟨rtype, rfl⟩⟩
  have opened : evalToken env (false, ⟨vals, ops, bad⟩) l = .ok
    (false, ⟨vals, .LP :: ops, bad⟩) := by
    rw [evalToken, open_]
    change (pushOp .LP ⟨vals, ops, bad⟩).map _ = _
    rw [pushOp_fits room]
    rfl
  have closed : evalToken env (true, s) r = .ok
    (true, ⟨e.value w env :: vals, ops, bad || e.reports w env⟩) := by
    rw [evalToken, close]
    change (evalop 3 .SGN s.vals s.ops s.bad >>= _) = _
    rw [holds.evalop (Nat.le_refl 3) (Nat.lt_of_lt_of_le (by decide) grouped.prio_ge)]
    rfl
  rw [Expr.tokens, evalRow_cons, opened]
  change evalRow env _ (e.tokens ++ [r]) = _
  rw [evalRow_append, read]
  change evalRow env _ [r] = _
  rw [evalRow_cons, closed]
  rfl

theorem reads_unary {t : Token} {e : Expr} (is_unary : Expr.isUnary t.type = true)
    (high : 16 ≤ e.prio) (room : ops.length < NSTAK)
    (inner : Reads env e vals (waiting t.type ops) bad) : Reads env (.unary t e) vals ops bad := by
  obtain ⟨s, read, holds⟩ := inner
  refine ⟨s, ?_, fun pri rtype low => ?_⟩
  · rw [Expr.tokens, evalRow_cons, evalToken_unary is_unary room]
    exact read
  · obtain ⟨rtype', same⟩ := holds pri rtype (Nat.lt_of_lt_of_le low high)
    rw [same, Expr.value]
    generalize t.type = ty at is_unary
    cases ty <;> first
      | exact absurd is_unary (by decide)
      | exact ⟨_, evalop_unary rfl low⟩
      | exact ⟨rtype', rfl⟩

theorem reads_binary {e₁ e₂ : Expr} {t : Token} (is_binary : Expr.isBinary t.type = true)
    (low : topPri ops ≤ (priority t.type).pri)
    (high : (priority t.type).pri < e₁.prio) (right : (priority t.type).pri ≤ e₂.prio)
    (room : ops.length < NSTAK)
    (first : Reads env e₁ vals ops bad)
      (second : Reads env e₂ (e₁.value w env :: vals) (t.type :: ops) (bad || e₁.reports w env)) :
    Reads env (.binary e₁ t e₂) vals ops bad := by
  obtain ⟨s₁, read₁, holds₁⟩ := first
  obtain ⟨s₂, read₂, holds₂⟩ := second
  refine ⟨s₂, ?_, fun pri rtype below => ?_⟩
  · rw [Expr.tokens, evalRow_append, read₁]
    change evalRow env _ (t :: e₂.tokens) = _
    rw [evalRow_cons, holds₁.binary (.inl is_binary) low high room]
    exact read₂
  · obtain ⟨rtype', same⟩ := holds₂ pri rtype (Nat.lt_of_lt_of_le below right)
    rw [Expr.reports, ← Bool.or_assoc]
    exact ⟨_, same.trans (evalop_binary is_binary below)⟩

theorem reads_cond {c a b : Expr} {q k : Token} (quest : q.type = .QUEST) (colon : k.type = .COLON)
    (low : topPri ops ≤ 5)
    (high_c : 5 < c.prio) (high_a : 5 < a.prio) (right : 5 ≤ b.prio) (room : ops.length + 1 < NSTAK)
    (first : Reads env c vals ops bad)
    (second : Reads env a (c.value w env :: vals) (.QUEST :: ops) (bad || c.reports w env))
    (third : Reads env b (a.value w env :: c.value w env :: vals) (.COLON :: .QUEST :: ops)
      (bad || c.reports w env || a.reports w env)) :
    Reads env (.cond c q a k b) vals ops bad := by
  obtain ⟨s₁, read₁, holds₁⟩ := first
  obtain ⟨s₂, read₂, holds₂⟩ := second
  obtain ⟨s₃, read₃, holds₃⟩ := third
  have asked := holds₁.binary (.inr (.inl quest)) (quest ▸ low) (quest ▸ high_c)
    (Nat.lt_of_succ_lt room)
  have chosen := holds₂.binary (.inr (.inr colon)) (colon ▸ Nat.le_refl 5) (colon ▸ high_a) room
  rw [quest] at asked
  rw [colon] at chosen
  refine ⟨s₃, ?_, fun pri rtype below => ?_⟩
  · rw [Expr.tokens, evalRow_append, read₁]
    change evalRow env _ (q :: (a.tokens ++ k :: b.tokens)) = _
    rw [evalRow_cons, asked]
    change evalRow env _ (a.tokens ++ k :: b.tokens) = _
    rw [evalRow_append, read₂]
    change evalRow env _ (k :: b.tokens) = _
    rw [evalRow_cons, chosen]
    exact read₃
  · obtain ⟨rtype', same⟩ := holds₃ pri rtype (Nat.lt_of_lt_of_le below right)
    rw [Expr.reports, ← Bool.or_assoc, ← Bool.or_assoc]
    exact ⟨_, same.trans (evalop_cond below)⟩

theorem Expr.Grouped.reads {e : Expr} (grouped : e.Grouped) (low : topPri ops ≤ e.prio)
    (room : ops.length + e.opsNeed ≤ NSTAK)
    (space : vals.length + e.valsNeed ≤ NSTAK) : Reads env e vals ops bad := by
  induction e generalizing vals ops bad with
  | operand t => exact reads_operand grouped space
  | paren l r e ih =>
    obtain ⟨open_, close, inner⟩ := grouped
    simp only [Expr.opsNeed, Expr.valsNeed] at room space
    refine reads_paren open_ close inner (by omega) (ih inner ?_ ?_ space)
    · exact Nat.le_trans (by decide : 3 ≤ 5) inner.prio_ge
    · rw [List.length_cons]
      omega
  | unary t e ih =>
    obtain ⟨is_unary, high, inner⟩ := grouped
    simp only [Expr.opsNeed, Expr.valsNeed] at room space
    have bounds : topPri (waiting t.type ops) ≤ e.prio ∧
      (waiting t.type ops).length ≤ ops.length + 1 := by
      have below : topPri ops ≤ 16 := low
      generalize t.type = ty at is_unary
      cases ty <;> first
        | exact absurd is_unary (by decide)
        | exact ⟨high, Nat.le_refl _⟩
        | exact ⟨below.trans high, Nat.le_succ _⟩
    exact reads_unary is_unary high (by omega) (ih inner bounds.1 (by omega) space)
  | binary e₁ t e₂ ih₁ ih₂ =>
    obtain ⟨is_binary, high, right, first, second⟩ := grouped
    simp only [Expr.opsNeed, Expr.valsNeed] at room space
    have below : topPri ops ≤ (priority t.type).pri := low
    refine reads_binary is_binary below high right (by omega) (ih₁ first ?_ (by omega) (by omega))
      (ih₂ second right ?_ ?_)
    · omega
    · rw [List.length_cons]
      omega
    · rw [List.length_cons]
      omega
  | cond c q a k b ih_c ih_a ih_b =>
    obtain ⟨⟨quest, colon⟩, ⟨high_c, high_a, right⟩, first, second, third⟩ := grouped
    simp only [Expr.opsNeed, Expr.valsNeed] at room space
    have below : topPri ops ≤ 5 := low
    refine reads_cond quest colon below high_c high_a right (by omega)
      (ih_c first ?_ (by omega) (by omega)) (ih_a second ?_ ?_ ?_)
      (ih_b third right ?_ ?_)
    · omega
    · exact Nat.le_of_lt high_a
    · rw [List.length_cons]
      omega
    · rw [List.length_cons]
      omega
    · rw [List.length_cons, List.length_cons]
      omega
    · rw [List.length_cons, List.length_cons]
      omega

def isBlank (t : Token) : Bool := t.type = .WS || t.type = .NL

theorem evalRow_blanks {r : Bool × Stacks w} {row : List Token} :
    evalRow env r row = evalRow env r (row.filter fun t => !isBlank t) := by
  induction row generalizing r with
  | nil => rfl
  | cons t row ih =>
    by_cases blank : isBlank t = true
    · have passed : evalToken env r t = .ok r := by
        unfold evalToken
        rcases (Bool.or_eq_true_iff.mp blank) with is | is <;> rw [of_decide_eq_true is]
      rw [evalRow_cons, passed, List.filter_cons_of_neg (by simp [blank]), ← ih]
      rfl
    · rw [List.filter_cons_of_pos (by simp [blank]), evalRow_cons, evalRow_cons]
      exact bind_congr fun r => ih

/-- The value of an expression, where operators of one priority are grouped to the right. -/
theorem eval_grouped {e : Expr} {row : List Token} (grouped : e.Grouped)
    (is : (row.filter fun t => !isBlank t) = e.tokens)
    (room : e.opsNeed < NSTAK) (space : e.valsNeed ≤ NSTAK) :
    eval w env row = .ok (e.value w env, e.reports w env || (e.value w env).type = .UND) := by
  have reads : Reads env e ([] : List (Value w)) [.END] false := by
    refine grouped.reads (Nat.zero_le _) ?_ ?_
    · rw [List.length_singleton]
      omega
    · rw [List.length_nil]
      omega
  obtain ⟨s, read, holds⟩ := reads
  have done : evalop 0 .SGN s.vals s.ops s.bad = .ok
    ⟨[e.value w env], [.END], false || e.reports w env⟩ :=
    holds.evalop (Nat.le_refl 0) (Nat.lt_of_lt_of_le (by decide) grouped.prio_ge)
  have evaluated : evaluate w env row = .ok
    (e.value w env, e.reports w env || (e.value w env).type = .UND) := by
    rw [evaluate, evalRow_blanks, is, read]
    change (evalop 0 .SGN s.vals s.ops s.bad >>= _) = _
    rw [done]
    rfl
  rw [eval, evaluated]

end

/-- `8 - 4 - 2`, at the end of a line -/
def twoMinuses : List Token :=
  [⟨.NUMBER, false, 0, 0, ['8']⟩, ⟨.MINUS, false, 0, 1, ['-']⟩, ⟨.NUMBER, false, 0, 1, ['4']⟩,
    ⟨.MINUS, false, 0, 1, ['-']⟩,
    ⟨.NUMBER, false, 0, 1, ['2']⟩, ⟨.NL, false, 0, 0, ['\n']⟩]

def withoutMacros : Env where
  table := []
  lex text := ⟨.NAME, false, 0, 0, text⟩
  builtinText _ := []

theorem eval_grouped_twoMinuses : eval 64 withoutMacros twoMinuses = .ok (⟨6, .SGN⟩, false) := by
  let second : Expr := .binary (.operand ⟨.NUMBER, false, 0, 1, ['4']⟩) ⟨.MINUS, false, 0, 1, ['-']⟩
    (.operand ⟨.NUMBER, false, 0, 1, ['2']⟩)
  let whole : Expr := .binary (.operand ⟨.NUMBER, false, 0, 0, ['8']⟩)
    ⟨.MINUS, false, 0, 1, ['-']⟩ second
  have grouped : whole.Grouped := by
    refine ⟨rfl, by decide, by decide, rfl, rfl, by decide, by decide, rfl, rfl⟩
  have evaluated : eval 64 withoutMacros twoMinuses = _ :=
    eval_grouped grouped rfl (by decide) (by decide)
  have six : (whole.value 64 withoutMacros, whole.reports 64 withoutMacros ||
    (whole.value 64 withoutMacros).type = .UND) =
      (⟨6, .SGN⟩, false) := by decide
  rw [evaluated, six]

end LC3Tools.Cpp
