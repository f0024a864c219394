import Mathlib.Data.BitVec

/-! The integer cases of `simplify` in `simp.c`, with the metrics of `lc3.md`. -/
namespace LC3Tools.Simp

/-- `u.v.i` and `u.v.u`, a long of the host. -/
abbrev Long := BitVec 64

/-- `ty->op`. All integer types of one kind have the same size and the same limits. -/
inductive Ty where
  | I | U
  deriving DecidableEq, Repr

inductive Binary where
  | add | sub | mul | div | mod | band | bor | bxor | lsh | rsh | eq | ne | ge | gt | le | lt
  deriving DecidableEq, Repr

/-- With the type of the result. NEG+U is no case. -/
inductive Unary where
  | bcom (ty : Ty)
  | neg
  | cvi (ty : Ty)
  | cvu (ty : Ty)
  deriving DecidableEq, Repr

/-- A leaf is a tree that no rule looks into. A field is read from one, and of the left kid
of RIGHT only the effects are used. -/
inductive Tree where
  | cnst (ty : Ty) (v : Long)
  | leaf (ty : Ty) (n : Nat)
  | field (ty : Ty) (right size n : Nat)
  | unary (op : Unary) (l : Tree)
  | binary (op : Binary) (ty : Ty) (l r : Tree)
  | right (l r : Tree)
  deriving DecidableEq, Repr

/-! The metrics: a size of one unit, of 16 bits. -/

def size : Nat := 1
def bitsCountInOneByte : Nat := 16

def ones (n : Nat) : Long := if 64 ≤ n then ~~~0 else ~~~(~~~(0 : Long) <<< n)

def maxI : Int := (ones (bitsCountInOneByte * size) >>> 1).toInt
def minI : Int := -maxI - 1
def maxU : Nat := (ones (bitsCountInOneByte * size)).toNat

def extend (x : Long) : Long :=
  if x &&& (1 : Long) <<< (8 * size - 1) ≠ 0 then x ||| ~~~(0 : Long) <<< (8 * size - 1)
    else x &&& ones (8 * size)

namespace Tree

def isConst : Tree → Bool
  | .cnst .. => true
  | _ => false

/-- The value if the operator is CNST with this suffix. -/
def const (s : Ty) : Tree → Option Long
  | .cnst ty v => if ty = s then some v else none
  | _ => none

def type : Tree → Ty
  | .cnst ty _ | .leaf ty _ | .field ty .. => ty
  | .unary (.bcom ty) _ | .unary (.cvi ty) _ | .unary (.cvu ty) _ => ty
  | .unary .neg _ => .I
  | .binary .eq .. | .binary .ne .. | .binary .ge .. | .binary .gt .. | .binary .le ..
    | .binary .lt .. => .I
  | .binary _ ty .. => ty
  | .right _ r => r.type

end Tree

def cnsttree : Ty → Long → Tree
  | .I, v => .cnst .I v
  | .U, v => .cnst .U (v &&& ones (8 * size))

/-! The macros. Each one names the tree that is returned, if any. -/

def foldcnst (s ty : Ty) (l r : Tree) (f : Long → Long → Long) : Option Tree := do
  let x ← l.const s
  let y ← r.const s
  return cnsttree ty (f x y)

def xfoldcnst (l r : Tree) (f : Long → Long → Long) (func : Int → Int → Bool) : Option Tree := do
  let x ← l.const .I
  let y ← r.const .I
  if func x.toInt y.toInt then some (cnsttree .I (f x y)) else none

def cfoldcnst (s : Ty) (l r : Tree) (test : Long → Long → Bool) : Option Tree :=
  foldcnst s .I l r fun x y => if test x y then 1 else 0

def sfoldcnst (l r : Tree) (f : Long → Nat → Long) : Option Tree := do
  let x ← l.const .U
  let y ← r.const .I
  if 0 ≤ y.toInt ∧ y.toInt < 8 * size then some (cnsttree .U (f x y.toNat)) else none

def commute (l r : Tree) : Tree × Tree :=
  if r.isConst && !l.isConst then (r, l) else (l, r)

def identity (x y : Tree) (s : Ty) (val : Long) : Option Tree :=
  if x.const s = some val then some y else none

def geu (l r : Tree) (v : Long) : Option Tree :=
  if r.const .U = some 0 then some (.right l (cnsttree .I v)) else none

/-! The checks. Operands of 16 bits are far from the limits of a long. -/

section
variable (needconst : Bool)

def addi (x y : Int) : Bool :=
  decide (x = 0 ∨ y = 0 ∨ (x < 0 ∧ y < 0 ∧ x ≥ minI - y) ∨ (x < 0 ∧ y > 0) ∨ (x > 0 ∧ y < 0) ∨
    (x > 0 ∧ y > 0 ∧ x ≤ maxI - y)) || needconst

def subi (x y : Int) : Bool := addi needconst x (-y)

def divi (x y : Int) : Bool := decide (y ≠ 0 ∧ ¬ (x = minI ∧ y = -1)) || needconst

def muli (x y : Int) : Bool :=
  decide ((x > -1 ∧ x ≤ 1) ∨ (y > -1 ∧ y ≤ 1) ∨ (x < 0 ∧ y < 0 ∧ -x ≤ maxI.tdiv (-y)) ∨
    (x < 0 ∧ y > 0 ∧ x ≥ minI.tdiv y) ∨ (x > 0 ∧ y < 0 ∧ y ≥ minI.tdiv x) ∨
    (x > 0 ∧ y > 0 ∧ x ≤ maxI.tdiv y)) || needconst

end

/-- `for (n = 0; u; u >>= 1, n++) if (u&1) return n;` -/
def lowest (u : Nat) : Nat :=
  if u = 0 then 0 else if u % 2 = 1 then 0 else lowest (u / 2) + 1
termination_by u
decreasing_by omega

def ispow2 (u : Nat) : Nat :=
  if 1 < u ∧ u &&& (u - 1) = 0 then lowest u else 0

/-! The cases. -/

section
variable (needconst : Bool)

def simplifyUnary (op : Unary) (l : Tree) : Tree :=
  (match op with
    | .cvi .I => do
      let v ← l.const .I
      if needconst ∨ ¬ (v.toInt < minI ∨ maxI < v.toInt) then some (cnsttree .I (extend v))
        else none
    | .cvu .I => do
      let v ← l.const .U
      if needconst ∨ ¬ maxI < v.toNat then some (cnsttree .I (extend v)) else none
    | .cvi .U => do
      let v ← l.const .I
      if needconst ∨ ¬ maxU < v.toNat then some (cnsttree .U (v &&& ones (8 * size))) else none
    | .cvu .U => do
      let v ← l.const .U
      if needconst ∨ ¬ maxU < v.toNat then some (cnsttree .U (v &&& ones (8 * size))) else none
    | .bcom .I => ((l.const .I).map fun v => cnsttree .I (extend (~~~v &&& ones (8 * size)))) <|>
      match l with
        | .unary (.bcom .U) k => some k
        | _ => none
    | .bcom .U => ((l.const .U).map fun v => cnsttree .U (~~~v &&& ones (8 * size))) <|>
      match l with
        | .unary (.bcom .U) k => some k
        | _ => none
    | .neg => ((l.const .I).bind fun v =>
        if needconst ∨ v.toInt ≠ minI then some (cnsttree .I (-v)) else none) <|>
      match l with
        | .unary .neg k => some k
        | _ => none).getD (.unary op l)

/-- From one kind of type to the other. -/
def cast (p : Tree) (ty : Ty) : Tree :=
  if p.type = ty then p
  else match p.type with
    | .I => simplifyUnary needconst (.cvi ty) p
    | .U => simplifyUnary needconst (.cvu ty) p

/-- Of two integer types. -/
def binaryType (xty yty : Ty) : Ty := if xty = .U ∨ yty = .U then .U else .I

def simplifyAdd : Ty → Tree → Tree → Tree
  | .U, l, r => (foldcnst .U .U l r (· + ·)).getD <|
    let (r, l) := commute r l
    (identity r l .U 0).getD (.binary .add .U l r)
  | .I, l, r => (xfoldcnst l r (· + ·) (addi needconst)).getD <|
    let (r, l) := commute r l
    (identity r l .I 0).getD (.binary .add .I l r)

def simplifySub : Ty → Tree → Tree → Tree
  | .U, l, r => (foldcnst .U .U l r (· - ·) <|> identity r l .U 0).getD (.binary .sub .U l r)
  | .I, l, r =>
    (xfoldcnst l r (· - ·) (subi needconst) <|> identity r l .I 0).getD (.binary .sub .I l r)

/-- BAND, BOR and BXOR. -/
def simplifyBand (ty : Ty) (l r : Tree) : Tree :=
  (foldcnst ty ty l r (· &&& ·)).getD <|
    let (r, l) := commute r l
    (identity r l ty (ones (8 * size)) <|>
      if r.const ty = some 0 then some (Tree.right l (cnsttree ty 0)) else none).getD
        (.binary .band ty l r)

def simplifyBor (ty : Ty) (l r : Tree) : Tree :=
  (foldcnst ty ty l r (· ||| ·)).getD <|
    let (r, l) := commute r l
    (identity r l ty 0).getD (.binary .bor ty l r)

def simplifyBxor (ty : Ty) (l r : Tree) : Tree :=
  (foldcnst ty ty l r (· ^^^ ·)).getD <|
    let (r, l) := commute r l
    (identity r l ty 0).getD (.binary .bxor ty l r)

/-- A count of eight or more is warned about and left alone. -/
def simplifyLsh : Ty → Tree → Tree → Tree
  | .I, l, r => (identity r l .I 0 <|> do
      let x ← l.const .I
      let y ← r.const .I
      if 0 ≤ y.toInt ∧ y.toInt < 8 * size ∧ muli needconst x.toInt (2 ^ y.toNat) then
        some (cnsttree .I (x <<< y.toNat))
      else none).getD (.binary .lsh .I l r)
  | .U, l, r => (identity r l .I 0 <|> sfoldcnst l r (· <<< ·)).getD (.binary .lsh .U l r)

def simplifyRsh : Ty → Tree → Tree → Tree
  | .I, l, r => (identity r l .I 0 <|> do
      let x ← l.const .I
      let y ← r.const .I
      if 0 ≤ y.toInt ∧ y.toInt < 8 * size then
        let n := x.sshiftRight y.toNat
        some (cnsttree .I (if x.toInt < 0 then n ||| ~~~(0 : Long) <<< (8 * size - y.toNat) else n))
      else none).getD (.binary .rsh .I l r)
  | .U, l, r => (identity r l .I 0 <|> sfoldcnst l r (· >>> ·)).getD (.binary .rsh .U l r)

/-- MUL+I from a constant on the left on, and what it says for a constant on the right. -/
def mulPow2 (x : Long) (r : Tree) : Tree :=
  let n := ispow2 x.toNat
  if 0 < x.toInt ∧ n ≠ 0 then simplifyLsh needconst .I r (cnsttree .I (.ofNat 64 n))
  else (identity r (.cnst .I x) .I 1).getD (.binary .mul .I (.cnst .I x) r)

/-- `c1*(x + c2) => c1*x + c1*c2`. -/
def mulConst (x : Long) : Tree → Tree
  | .cnst .I y =>
    if muli needconst x.toInt y.toInt then cnsttree .I (x * y) else mulPow2 needconst x (.cnst .I y)
  | .binary .add .I a (.cnst .I c) =>
    simplifyAdd needconst .I (mulConst x a) (mulConst x (.cnst .I c))
  | .binary .sub .I a (.cnst .I c) =>
    simplifySub needconst .I (mulConst x a) (mulConst x (.cnst .I c))
  | r => mulPow2 needconst x r

def simplifyMul : Ty → Tree → Tree → Tree
  | .U, l, r =>
    let (l, r) := commute l r
    let n := ispow2 ((l.const .U).elim 0 (·.toNat))
    if n ≠ 0 then simplifyLsh needconst .U r (cnsttree .I (.ofNat 64 n))
    else (foldcnst .U .U l r (· * ·) <|> identity r l .U 1).getD (.binary .mul .U l r)
  | .I, l, r =>
    let (l, r) := commute l r
    match l with
    | .cnst .I x => mulConst needconst x r
    | l => (identity r l .I 1).getD (.binary .mul .I l r)

def simplifyDiv : Ty → Tree → Tree → Tree
  | .I, l, r => (identity r l .I 1).getD <|
    if r.const .I = some 0 ∨ (l.const .I).map (·.toInt) = some minI ∧
      (r.const .I).map (·.toInt) = some (-1) then
      .binary .div .I l r
    else (xfoldcnst l r BitVec.sdiv (divi needconst)).getD (.binary .div .I l r)
  | .U, l, r => (identity r l .U 1).getD <|
    if r.const .U = some 0 then .binary .div .U l r
    else
      let n := ispow2 ((r.const .U).elim 0 (·.toNat))
      if n ≠ 0 then simplifyRsh .U l (cnsttree .I (.ofNat 64 n))
      else (foldcnst .U .U l r (· / ·)).getD (.binary .div .U l r)

/-- `bittree` for integer operands. -/
def bittree (l r : Tree) : Tree :=
  let ty := binaryType l.type r.type
  simplifyBand ty (cast needconst l ty) (cast needconst r ty)

def simplifyMod : Ty → Tree → Tree → Tree
  | .I, l, r =>
    if r.const .I = some 0 ∨ (l.const .I).map (·.toInt) = some minI ∧
      (r.const .I).map (·.toInt) = some (-1) then
      .binary .mod .I l r
    else (xfoldcnst l r BitVec.srem (divi needconst) <|>
      if r.const .I = some 1 then some (Tree.right l (cnsttree .I 0)) else none).getD
        (.binary .mod .I l r)
  | .U, l, r =>
    let u := (r.const .U).elim 0 (·.toNat)
    if ispow2 u ≠ 0 then bittree needconst l (cnsttree .U (.ofNat 64 (u - 1)))
    else if r.const .U = some 0 then .binary .mod .U l r
    else (foldcnst .U .U l r (· % ·)).getD (.binary .mod .U l r)

/-- `~0u` is an unsigned int. -/
def fieldmask (fieldsize : Nat) : BitVec 32 :=
  ~~~(if fieldsize < 8 * size then ~~~(0 : BitVec 32) <<< fieldsize else 0)

def relation (negated : Bool) : Binary := if negated then .ne else .eq

/-- EQ and NE for operands that are no fields. -/
def simplifyEqPlain (negated : Bool) (s : Ty) (l r : Tree) : Tree :=
  (cfoldcnst s l r fun x y => (x == y) != negated).getD <|
    let (r, l) := commute r l
    .binary (relation negated) s l r

/-- The bits of a field are compared in the word that it is read from, which is no field. -/
def zerofield (negated : Bool) (s : Ty) (l r : Tree) : Option Tree :=
  match l with
  | .field ty right size n =>
    if r.const s = some 0 then
      let l := bittree needconst (.leaf ty n) (cnsttree .U ((fieldmask size).setWidth 64 <<< right))
      let ty := binaryType l.type r.type
      some (simplifyEqPlain negated ty (cast needconst l ty) (cast needconst r ty))
    else none
  | _ => none

def simplifyEq (negated : Bool) (s : Ty) (l r : Tree) : Tree :=
  (cfoldcnst s l r fun x y => (x == y) != negated).getD <|
    let (r, l) := commute r l
    (zerofield needconst negated s l r).getD (.binary (relation negated) s l r)

/-- `eqtree` and `cmptree` for integer operands. -/
def eqtree (negated : Bool) (l r : Tree) : Tree :=
  let ty := binaryType l.type r.type
  simplifyEq needconst negated ty (cast needconst l ty) (cast needconst r ty)

def simplify : Binary → Ty → Tree → Tree → Tree
  | .add, ty, l, r => simplifyAdd needconst ty l r
  | .sub, ty, l, r => simplifySub needconst ty l r
  | .mul, ty, l, r => simplifyMul needconst ty l r
  | .div, ty, l, r => simplifyDiv needconst ty l r
  | .mod, ty, l, r => simplifyMod needconst ty l r
  | .band, ty, l, r => simplifyBand ty l r
  | .bor, ty, l, r => simplifyBor ty l r
  | .bxor, ty, l, r => simplifyBxor ty l r
  | .lsh, ty, l, r => simplifyLsh needconst ty l r
  | .rsh, ty, l, r => simplifyRsh ty l r
  | .eq, ty, l, r => simplifyEq needconst false ty l r
  | .ne, ty, l, r => simplifyEq needconst true ty l r
  | .ge, .I, l, r => (cfoldcnst .I l r fun x y => y.sle x).getD (.binary .ge .I l r)
  | .gt, .I, l, r => (cfoldcnst .I l r fun x y => y.slt x).getD (.binary .gt .I l r)
  | .le, .I, l, r => (cfoldcnst .I l r fun x y => x.sle y).getD (.binary .le .I l r)
  | .lt, .I, l, r => (cfoldcnst .I l r fun x y => x.slt y).getD (.binary .lt .I l r)
  | .ge, .U, l, r => (geu l r 1 <|> cfoldcnst .U l r (fun x y => y.ule x) <|>
      if l.const .U = some 0 then some (eqtree needconst false r l) else none).getD
        (.binary .ge .U l r)
  | .gt, .U, l, r => (geu r l 0 <|> cfoldcnst .U l r (fun x y => y.ult x) <|>
      if r.const .U = some 0 then some (eqtree needconst true l r) else none).getD
        (.binary .gt .U l r)
  | .le, .U, l, r => (geu r l 1 <|> cfoldcnst .U l r (fun x y => x.ule y) <|>
      if r.const .U = some 0 then some (eqtree needconst false l r) else none).getD
        (.binary .le .U l r)
  | .lt, .U, l, r => (geu l r 0 <|> cfoldcnst .U l r (fun x y => x.ult y) <|>
      if l.const .U = some 0 then some (eqtree needconst true r l) else none).getD
        (.binary .lt .U l r)

end

end LC3Tools.Simp
