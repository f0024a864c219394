import LC3Tools.Cpp.Expand

/-! The expressions of `#if` and `#elif` as `eval.c` evaluates them, with a stack of values and one
of operators. The top of a stack is the head of its list. -/
namespace LC3Tools.Cpp

def NSTAK : Nat := 32

inductive ValType where
  | SGN | UNS | UND
  deriving DecidableEq

structure Value (w : Nat) where
  val : BitVec w
  type : ValType
  deriving DecidableEq

inductive CType where
  | RELAT | ARITH | LOGIC | SPCL | SHIFT | UNARY | other
  deriving DecidableEq

structure Pri where
  pri : Nat
  arity : Nat
  ctype : CType

def priority : TokType → Pri
  | .EQ | .NEQ => ⟨11, 2, .RELAT⟩
  | .LEQ | .GEQ | .LT | .GT => ⟨12, 2, .RELAT⟩
  | .LSH | .RSH => ⟨13, 2, .SHIFT⟩
  | .LAND => ⟨7, 2, .LOGIC⟩
  | .LOR => ⟨6, 2, .LOGIC⟩
  | .LP | .RP => ⟨3, 0, .other⟩
  | .AND => ⟨10, 2, .ARITH⟩
  | .STAR | .SLASH | .PCT => ⟨15, 2, .ARITH⟩
  | .PLUS | .MINUS => ⟨14, 2, .ARITH⟩
  | .TILDE | .NOT | .DEFINED => ⟨16, 1, .UNARY⟩
  | .CIRC => ⟨9, 2, .ARITH⟩
  | .OR => ⟨8, 2, .ARITH⟩
  | .QUEST | .COLON => ⟨5, 2, .SPCL⟩
  | .COMMA => ⟨4, 2, .other⟩
  | .UMINUS => ⟨16, 0, .UNARY⟩
  | _ => ⟨0, 0, .other⟩

inductive Fault where
  /-- `Syntax error in #if/#elsif` -/
  | notExpression
  /-- `Eval botch (stack overflow)` -/
  | stackOverflow
  /-- An operator is written behind the end of `ops`. -/
  | opsOverflow
  /-- A value is read in front of `vals`. -/
  | underflow
  /-- `Illegal operator * or & in #if/#elsif` -/
  | illegal
  /-- `Bad operator in #if/#elsif` -/
  | badOperator
  /-- `Eval botch (unknown operator)` -/
  | unknown
  /-- `Syntax error in #if/#endif`, a warning: whether an error has been reported in front of it. -/
  | warning (bad : Bool)
  /-- `Botch in #if/#elsif` -/
  | botch
  deriving DecidableEq

structure Stacks (w : Nat) where
  vals : List (Value w)
  ops : List TokType
  /-- An error has been reported that does not end the evaluation. -/
  bad : Bool

def digit (c : Char) : Option Nat :=
  if '0' ≤ c ∧ c ≤ '9' then some (c.toNat - '0'.toNat)
  else if 'a' ≤ c ∧ c ≤ 'f' then some (c.toNat - 'a'.toNat + 10)
  else if 'A' ≤ c ∧ c ≤ 'F' then some (c.toNat - 'A'.toNat + 10)
  else none

def octal (c : Char) : Option Nat := (digit c).filter (· ≤ 7)

/-- The digits in front, as many as there are up to `most`. -/
def digitsOf (value : Char → Option Nat) : Nat → List Char → List Nat × List Char
  | most + 1, c :: p =>
    match value c with
    | some i =>
      let r := digitsOf value most p
      (i :: r.1, r.2)
    | none => ([], c :: p)
  | _, p => ([], p)

section
variable {w : Nat}

def truth (w : Nat) (b : Bool) : BitVec w := if b then 1 else 0

def arith (t1 t2 : ValType) : ValType :=
  if t1 = .UND ∨ t2 = .UND then .UND else if t1 = .UNS ∨ t2 = .UNS then .UNS else .SGN

def relat (v1 v2 : Value w) (signed unsigned : Bool) : Value w :=
  match arith v1.type v2.type with
  | .UNS => ⟨truth w unsigned, .SGN⟩
  | t => ⟨truth w signed, t⟩

def shift (v1 v2 : Value w) (signed unsigned : BitVec w) : Value w :=
  if v1.type = .UND ∨ v2.type = .UND then ⟨signed, .UND⟩
  else if v1.type = .UNS then ⟨unsigned, .UNS⟩ else ⟨signed, v1.type⟩

def divided (v1 v2 : Value w) (signed unsigned : BitVec w) : Value w :=
  let rtype := arith v1.type v2.type
  if v2.val = 0 then ⟨v1.val, .UND⟩ else if rtype = .UNS then ⟨unsigned, rtype⟩ else ⟨signed, rtype⟩

/-- `&&` and `||`: the second operand is looked at if the first has the truth `goes`. -/
def logic (v1 v2 : Value w) (goes : Bool) : Value w :=
  if v1.type = .UND then ⟨v1.val, .UND⟩
  else if decide (v1.val ≠ 0) = goes then
    if v2.type = .UND then ⟨v1.val, .UND⟩ else ⟨truth w (v2.val ≠ 0), .SGN⟩
  else ⟨truth w (!goes), .SGN⟩

def numeral (w base : Nat) (digits : List Nat) : BitVec w :=
  digits.foldl (fun n i => n * BitVec.ofNat w base + BitVec.ofNat w i) 0

/-- What stands behind the digits of a number. -/
def suffix (type : ValType) : List Char → ValType × Bool
  | [] => (type, false)
  | c :: p => if c = 'u' ∨ c = 'U' then suffix .UNS p else if c = 'l' ∨ c = 'L' then suffix type p
    else (type, true)

def number (w : Nat) (text : List Char) : Value w × Bool :=
  let r : Nat × List Char :=
    match text with
    | '0' :: 'x' :: p | '0' :: 'X' :: p => (16, p)
    | '0' :: p => (8, p)
    | p => (10, p)
  let ds := digitsOf digit r.2.length r.2
  let n := numeral w r.1 ds.1
  let s := suffix (if n.toNat ≥ 0x80000000 ∧ r.1 ≠ 10 then .UNS else .SGN) ds.2
  (⟨n, s.1⟩, s.2)

def cvcon : List (Char × Nat) :=
  [('b', 8), ('f', 12), ('n', 10), ('r', 13), ('t', 9), ('v', 11), ('\'', 39), ('"', 34), ('?', 63),
    ('\\', 92)]

/-- A character constant, behind its first quote. -/
def charConstant (w : Nat) : List Char → BitVec w × Bool
  | '\\' :: 'x' :: p => (numeral w 16 (digitsOf digit p.length p).1, false)
  | '\\' :: c :: p =>
    if (octal c).isSome then (numeral w 8 (digitsOf octal 3 (c :: p)).1, false)
    else (BitVec.ofNat w ((cvcon.lookup c).getD 0), false)
  | '\'' :: _ => (0, true)
  | c :: _ => (BitVec.ofNat w c.toNat, false)
  | [] => (0, false)

/-- The value of an operand, and whether an error has been reported. -/
def tokval (w : Nat) (env : Env) (t : Token) : Value w × Bool :=
  match t.type with
  | .NAME1 =>
    (⟨truth w (((lookup env t).bind fun np => env.table[np]?).any fun n => n.isDefined || n.isMac),
      .SGN⟩, false)
  | .NUMBER => number w t.text
  | .CCON =>
    let r := charConstant w (if t.text.head? = some 'L' then t.text.drop 2 else t.text.drop 1)
    (⟨r.1, .SGN⟩, r.2)
  | .STRING => (⟨0, .SGN⟩, true)
  | _ => (⟨0, .SGN⟩, false)

/-- What an operator makes of its operands. -/
def operate (oper : TokType) (v1 v2 : Value w) : Value w :=
  let rtype := arith v1.type v2.type
  match oper with
  | .EQ => relat v1 v2 (v1.val = v2.val) (v1.val = v2.val)
  | .NEQ => relat v1 v2 (v1.val ≠ v2.val) (v1.val ≠ v2.val)
  | .LEQ => relat v1 v2 (v1.val.sle v2.val) (v1.val.ule v2.val)
  | .GEQ => relat v1 v2 (v2.val.sle v1.val) (v2.val.ule v1.val)
  | .LT => relat v1 v2 (v1.val.slt v2.val) (v1.val.ult v2.val)
  | .GT => relat v1 v2 (v2.val.slt v1.val) (v2.val.ult v1.val)
  | .LSH => shift v1 v2 (v1.val <<< v2.val) (v1.val <<< v2.val)
  | .RSH => shift v1 v2 (v1.val.sshiftRight v2.val.toNat) (v1.val >>> v2.val)
  | .LAND => logic v1 v2 true
  | .LOR => logic v1 v2 false
  | .AND => ⟨v1.val &&& v2.val, rtype⟩
  | .STAR => ⟨v1.val * v2.val, rtype⟩
  | .PLUS => ⟨v1.val + v2.val, rtype⟩
  | .MINUS => ⟨v1.val - v2.val, rtype⟩
  | .OR => ⟨v1.val ||| v2.val, rtype⟩
  | .CIRC => ⟨v1.val ^^^ v2.val, rtype⟩
  | .SLASH => divided v1 v2 (v1.val.sdiv v2.val) (v1.val / v2.val)
  | .PCT => divided v1 v2 (v1.val.srem v2.val) (v1.val % v2.val)
  | .UMINUS => ⟨-v1.val, v1.type⟩
  | .TILDE => ⟨~~~v1.val, v1.type⟩
  | .NOT => ⟨truth w (v1.val = 0), if v1.type = .UND then .UND else .SGN⟩
  | _ => v1

/-- Operators that `evalop` has a value for, but for `?:`. -/
def known (oper : TokType) : Bool :=
  match (priority oper).ctype with
  | .RELAT | .ARITH | .LOGIC | .SHIFT | .UNARY => true
  | .SPCL | .other => false

/-- The operands of an operator, and what is left. -/
def operands (oper : TokType) : List (Value w) → Option (Value w × Value w × List (Value w))
  | v2 :: v1 :: vals =>
      if (priority oper).arity = 2 then some (v1, v2, vals) else some (v2, v2, v1 :: vals)
  | [v1] => if (priority oper).arity = 2 then none else some (v1, v1, [])
  | [] => none

/-- `evalop`: the type of the value before is that of a `:` which has no `?`. -/
def evalop (pri : Nat) (rtype : ValType) (vals : List (Value w)) (ops : List TokType) (bad : Bool) :
    Except Fault (Stacks w) :=
  match ops with
  | [] => .ok ⟨vals, [], bad⟩
  | oper :: ops =>
    if pri < (priority oper).pri then
      match operands oper vals with
      | none => .error .underflow
      | some (v1, v2, vals) =>
        if oper = .COLON then
          match ops with
          | .QUEST :: ops =>
            match vals with
            | [] => .error .underflow
            | c :: vals =>
              let v := if c.val = 0 then v2 else v1
              evalop pri v.type (v :: vals) ops bad
          | ops => evalop pri rtype (⟨v1.val, rtype⟩ :: vals) ops true
        else if known oper then
          let v := operate oper v1 v2
          evalop pri v.type (v :: vals) ops bad
        else if (priority oper).ctype = .SPCL then .error .unknown
        else .error (.warning bad)
    else .ok ⟨vals, oper :: ops, bad⟩

def pushOp (oper : TokType) (s : Stacks w) : Except Fault (Stacks w) :=
  if s.ops.length < NSTAK then .ok { s with ops := oper :: s.ops } else .error .opsOverflow

/-- A binary operator, behind an operand. -/
def binary (oper : TokType) (s : Stacks w) : Except Fault (Bool × Stacks w) := do
  let s ← evalop (priority oper).pri .SGN s.vals s.ops s.bad
  let s ← pushOp oper s
  .ok (false, s)

/-- One turn of the loop of `eval`. -/
def evalToken (env : Env) (r : Bool × Stacks w) (t : Token) : Except Fault (Bool × Stacks w) :=
  match t.type with
  | .WS | .NL => .ok r
  | .NAME | .NAME1 | .NUMBER | .CCON | .STRING =>
    if r.1 then .error .notExpression
    else if r.2.vals.length = NSTAK then .error .stackOverflow
    else
      let v := tokval w env t
      .ok (true, { r.2 with vals := v.1 :: r.2.vals, bad := r.2.bad || v.2 })
  | .DEFINED | .TILDE | .NOT =>
    if r.1 then .error .notExpression else (pushOp t.type r.2).map fun s => (false, s)
  | .PLUS => if r.1 then binary .PLUS r.2 else .ok r
  | .MINUS => if r.1 then binary .MINUS r.2 else (pushOp .UMINUS r.2).map fun s => (false, s)
  | .STAR | .AND => if r.1 then binary t.type r.2 else .error .illegal
  | .EQ | .NEQ | .LEQ | .GEQ | .LSH | .RSH | .LAND | .LOR | .SLASH | .PCT | .LT | .GT | .CIRC | .OR
    | .QUEST | .COLON | .COMMA =>
    if r.1 then binary t.type r.2 else .error .notExpression
  | .LP => if r.1 then .error .notExpression else (pushOp .LP r.2).map fun s => (false, s)
  | .RP =>
    if r.1 then do
      let s ← evalop (priority .RP).pri .SGN r.2.vals r.2.ops r.2.bad
      match s.ops with
      | .LP :: ops => .ok (true, { s with ops })
      | _ => .error .notExpression
    else .error .notExpression
  | _ => .error .badOperator

def evalRow (env : Env) (r : Bool × Stacks w) (row : List Token) : Except Fault (Bool × Stacks w) :=
  row.foldlM (evalToken env) r

/-- `eval` of a row that has been expanded, behind its keyword, as far as `evalop` goes on: the
value, and whether an error has been reported. -/
def evaluate (w : Nat) (env : Env) (row : List Token) : Except Fault (Value w × Bool) := do
  let r ← evalRow env (false, ⟨[], [.END], false⟩) row
  if r.1 then
    let s ← evalop (priority .END).pri .SGN r.2.vals r.2.ops r.2.bad
    match s.vals, s.ops with
    | [v], [.END] => .ok (v, s.bad || v.type = .UND)
    | _, _ => .error .botch
  else .error .notExpression

/-- Behind the warning of `evalop` the result is 0, and `nerrs` is as it was. -/
def eval (w : Nat) (env : Env) (row : List Token) : Except Fault (Value w × Bool) :=
  match evaluate w env row with
  | .error (.warning bad) => .ok (⟨0, .SGN⟩, bad)
  | result => result

end

end LC3Tools.Cpp
