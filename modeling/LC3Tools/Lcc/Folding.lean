import LC3Tools.Lcc.Simplify

/-! What a tree is worth in C with 16-bit int and unsigned, and what each rule of `simplify`
makes of it. -/
namespace LC3Tools.Simp

abbrev Word := BitVec 16

def truth (b : Bool) : Word := if b then 1 else 0

/-- An operator on two words. Without a result, C leaves the behaviour undefined. -/
def apply : Binary → Ty → Word → Word → Option Word
  | .add, _, a, b => some (a + b)
  | .sub, _, a, b => some (a - b)
  | .mul, _, a, b => some (a * b)
  | .div, .I, a, b => if b = 0 ∨ a.toInt = minI ∧ b.toInt = -1 then none else some (a.sdiv b)
  | .div, .U, a, b => if b = 0 then none else some (a / b)
  | .mod, .I, a, b => if b = 0 ∨ a.toInt = minI ∧ b.toInt = -1 then none else some (a.srem b)
  | .mod, .U, a, b => if b = 0 then none else some (a % b)
  | .band, _, a, b => some (a &&& b)
  | .bor, _, a, b => some (a ||| b)
  | .bxor, _, a, b => some (a ^^^ b)
  | .lsh, _, a, b => if b.toNat < 16 then some (a <<< b.toNat) else none
  | .rsh, .I, a, b => if b.toNat < 16 then some (a.sshiftRight b.toNat) else none
  | .rsh, .U, a, b => if b.toNat < 16 then some (a >>> b.toNat) else none
  | .eq, _, a, b => some (truth (a == b))
  | .ne, _, a, b => some (truth (a != b))
  | .ge, .I, a, b => some (truth (b.sle a))
  | .ge, .U, a, b => some (truth (b.ule a))
  | .gt, .I, a, b => some (truth (b.slt a))
  | .gt, .U, a, b => some (truth (b.ult a))
  | .le, .I, a, b => some (truth (a.sle b))
  | .le, .U, a, b => some (truth (a.ule b))
  | .lt, .I, a, b => some (truth (a.slt b))
  | .lt, .U, a, b => some (truth (a.ult b))

def applyUnary : Unary → Word → Word
  | .bcom _, a => ~~~a
  | .neg, a => -a
  | .cvi _, a | .cvu _, a => a

/-- The bits of a field, with the sign of an int field. -/
def bits (ty : Ty) (right size : Nat) (w : Word) : Word :=
  match ty with
  | .I => (w.extractLsb' right size).signExtend 16
  | .U => (w.extractLsb' right size).setWidth 16

def eval (ρ : Nat → Word) : Tree → Option Word
  | .cnst _ v => some (v.setWidth 16)
  | .leaf _ n => some (ρ n)
  | .field ty right size n => some (bits ty right size (ρ n))
  | .unary op l => (eval ρ l).map (applyUnary op)
  | .binary op ty l r => (eval ρ l).bind fun a => (eval ρ r).bind (apply op ty a)
  | .right l r => (eval ρ l).bind fun _ => eval ρ r

/-- C defines the value: no signed overflow, and no right shift of a negative number. -/
def Defined : Binary → Ty → Word → Word → Prop
  | .add, .I, a, b => minI ≤ a.toInt + b.toInt ∧ a.toInt + b.toInt ≤ maxI
  | .sub, .I, a, b => minI ≤ a.toInt - b.toInt ∧ a.toInt - b.toInt ≤ maxI
  | .mul, .I, a, b => minI ≤ a.toInt * b.toInt ∧ a.toInt * b.toInt ≤ maxI
  | .rsh, .I, a, b => 0 ≤ a.toInt ∧ b.toNat < 16
  | op, ty, a, b => (apply op ty a b).isSome

def DefinedUnary : Unary → Word → Prop
  | .neg, a => a.toInt ≠ minI
  | .cvu .I, a => a.toNat ≤ maxI
  | _, _ => True

/-- A constant is in the range of its type, and a field within the eight bits of a unit. -/
def Operand (ty : Ty) (t : Tree) : Prop :=
  t.type = ty ∧ match t with
    | .cnst .I v => minI ≤ v.toInt ∧ v.toInt ≤ maxI
    | .cnst .U v => v.toNat ≤ maxU
    | .field _ right size _ => 0 < size ∧ right + size ≤ 8 * Simp.size
    | _ => True

/-- The tree that is returned has the value of the operator, whenever C defines it. -/
def Preserves (needconst : Bool) (op : Binary) (ty : Ty) (l r : Tree) : Prop :=
  ∀ ρ a b, eval ρ l = some a → eval ρ r = some b → Defined op ty a b →
    eval ρ (simplify needconst op ty l r) = apply op ty a b

def PreservesUnary (needconst : Bool) (op : Unary) (l : Tree) : Prop :=
  ∀ ρ a, eval ρ l = some a → DefinedUnary op a →
    eval ρ (simplifyUnary needconst op l) = some (applyUnary op a)

theorem minI_eq : minI = -32768 := by decide
theorem maxI_eq : maxI = 32767 := by decide
theorem maxU_eq : maxU = 65535 := by decide
theorem ones_size : ones (8 * size) = 255 := by decide

section
variable {ρ : Nat → Word} {s ty : Ty} {l r t u x y : Tree} {a b w : Word} {v : Long}
  {f : Long → Long → Long}

theorem const_eq_some : t.const s = some v ↔ t = .cnst s v := by
  cases t with
  | cnst ty v' =>
    simp only [Tree.const]
    split <;> rename_i same <;> simp [same]
  | _ => simp [Tree.const]

theorem isConst_of_const (found : t.const s = some v) : t.isConst := by
  rw [const_eq_some.mp found]
  rfl

theorem isConst_iff : t.isConst ↔ ∃ s v, t = .cnst s v := by
  cases t <;> simp [Tree.isConst]

theorem eval_cnsttree_I (v : Long) : eval ρ (cnsttree .I v) = some (v.setWidth 16) := rfl

theorem eval_cnsttree_U (v : Long) : eval ρ (cnsttree .U v) = some (v.setWidth 16 &&& 255) := by
  rw [cnsttree, eval, ones_size, BitVec.setWidth_and]
  rfl

theorem eval_getD {rule : Option Tree} (applies : ∀ u, rule = some u → eval ρ u = some w)
    (otherwise : rule = none → eval ρ t = some w) : eval ρ (rule.getD t) = some w := by
  cases rule with
  | none => exact otherwise rfl
  | some u => exact applies u rfl

theorem eval_orElse {first second : Option Tree} (one : ∀ u, first = some u → eval ρ u = some w)
    (other : ∀ u, second = some u → eval ρ u = some w) : ∀ u, (first <|> second) = some u →
      eval ρ u = some w := by
  intro u found
  cases first with
  | none => exact other u found
  | some t => exact one u found

theorem foldcnst_eq_some : foldcnst s ty l r f = some u ↔
    ∃ x y, l = .cnst s x ∧ r = .cnst s y ∧ u = cnsttree ty (f x y) := by
  simp only [foldcnst, Option.bind_eq_bind, Option.bind_eq_some_iff, const_eq_some, Option.pure_def,
    Option.some.injEq]
  grind

theorem identity_eq_some : identity x y s v = some u ↔ x = .cnst s v ∧ u = y := by
  rw [identity, ← const_eq_some]
  split <;> rename_i found <;> simp [found, eq_comm]

theorem eval_identity (unit : v.setWidth 16 = b → a = w) (hx : eval ρ x = some b)
    (hy : eval ρ y = some a) :
    ∀ u, identity x y s v = some u → eval ρ u = some w := by
  intro u found
  obtain ⟨rfl, rfl⟩ := identity_eq_some.mp found
  rw [hy, unit (Option.some.inj hx)]

theorem eval_binary (op : Binary) (ty : Ty) (hl : eval ρ l = some a) (hr : eval ρ r = some b) :
    eval ρ (.binary op ty l r) = apply op ty a b := by
  rw [eval, hl, hr]
  rfl

theorem commute_cases (l r : Tree) : commute l r = (l, r) ∨ commute l r = (r, l) := by
  rw [commute]
  split
  · exact .inr rfl
  · exact .inl rfl

theorem xfoldcnst_eq_some {func : Int → Int → Bool} (found : xfoldcnst l r f func = some u) :
    ∃ x y, l = .cnst .I x ∧ r = .cnst .I y ∧ u = cnsttree .I (f x y) := by
  simp only [xfoldcnst, Option.bind_eq_bind, Option.bind_eq_some_iff, const_eq_some] at found
  obtain ⟨x, hx, y, hy, found⟩ := found
  split at found
  · exact ⟨x, y, hx, hy, (Option.some.inj found).symm⟩
  · cases found

theorem setWidth_sub (x y : Long) : (x - y).setWidth 16 = x.setWidth 16 - y.setWidth 16 := by
  bv_omega

theorem eval_xfoldcnst {func : Int → Int → Bool} {g : Word → Word → Word}
    (low : ∀ x y, (f x y).setWidth 16 = g (x.setWidth 16) (y.setWidth 16)) (hl : eval ρ l = some a)
    (hr : eval ρ r = some b) :
    ∀ u, xfoldcnst l r f func = some u → eval ρ u = some (g a b) := by
  intro u found
  obtain ⟨x, y, rfl, rfl, rfl⟩ := xfoldcnst_eq_some found
  rw [eval_cnsttree_I, low, Option.some.inj hl, Option.some.inj hr]

/-- Not two unsigned constants. -/
def Free (ty : Ty) (l r : Tree) : Prop := ty = .U → ¬ (l.isConst ∧ r.isConst)

theorem eval_foldcnst {g : Word → Word → Word} (free : Free ty l r)
    (low : ∀ x y, (f x y).setWidth 16 = g (x.setWidth 16) (y.setWidth 16)) (hl : eval ρ l = some a)
    (hr : eval ρ r = some b) :
    ∀ u, foldcnst ty ty l r f = some u → eval ρ u = some (g a b) := by
  intro u found
  obtain ⟨x, y, rfl, rfl, rfl⟩ := foldcnst_eq_some.mp found
  cases ty with
  | I => rw [eval_cnsttree_I, low, Option.some.inj hl, Option.some.inj hr]
  | U => exact absurd ⟨rfl, rfl⟩ (free rfl)

variable {needconst : Bool}

theorem eval_commute (op : Binary) (ty : Ty) (val : Long) {g : Word → Word → Word}
    (meaning : ∀ a b, apply op ty a b = some (g a b))
    (comm : ∀ a b, g a b = g b a) (unit : ∀ a, g a (val.setWidth 16) = a) (hl : eval ρ l = some a)
    (hr : eval ρ r = some b) :
    eval ρ (let (r, l) := commute r l; (identity r l ty val).getD (.binary op ty l r)) = some
      (g a b) := by
  have ordered {l r : Tree} {a b : Word} (hl : eval ρ l = some a) (hr : eval ρ r = some b) :
      eval ρ ((identity r l ty val).getD (.binary op ty l r)) = some (g a b) := by
    refine eval_getD (eval_identity (fun same => ?_) hr hl) fun _ => ?_
    · rw [← same, unit]
    · rw [eval_binary op ty hl hr, meaning]
  rcases commute_cases r l with order | order <;> rw [order]
  · exact ordered hl hr
  · rw [comm]
    exact ordered hr hl

theorem simplifyAdd_sound (free : Free ty l r) (hl : eval ρ l = some a) (hr : eval ρ r = some b) :
    eval ρ (simplifyAdd needconst ty l r) = some (a + b) := by
  have low (x y : Long) : (x + y).setWidth 16 = x.setWidth 16 + y.setWidth 16 :=
    BitVec.setWidth_add x y (by decide)
  have rest := eval_commute .add ty 0 (fun _ _ => rfl) BitVec.add_comm BitVec.add_zero hl hr
  cases ty with
  | I => exact eval_getD (eval_xfoldcnst low hl hr) fun _ => rest
  | U => exact eval_getD (eval_foldcnst free low hl hr) fun _ => rest

theorem simplifySub_sound (free : Free ty l r) (hl : eval ρ l = some a) (hr : eval ρ r = some b) :
    eval ρ (simplifySub needconst ty l r) = some (a - b) := by
  have same {s : Ty} : ∀ u, identity r l s 0 = some u → eval ρ u = some (a - b) :=
    eval_identity (fun zero => by rw [← zero]; exact (BitVec.sub_zero a).symm) hr hl
  cases ty with
  | I => exact eval_getD (eval_orElse (eval_xfoldcnst setWidth_sub hl hr) same) fun _ =>
      eval_binary .sub .I hl hr
  | U => exact eval_getD (eval_orElse (eval_foldcnst free setWidth_sub hl hr) same) fun _ =>
      eval_binary .sub .U hl hr

theorem simplifyBor_sound (free : Free ty l r) (hl : eval ρ l = some a) (hr : eval ρ r = some b) :
    eval ρ (simplifyBor ty l r) = some (a ||| b) :=
  eval_getD (eval_foldcnst free (fun _ _ => BitVec.setWidth_or) hl hr) fun _ =>
    eval_commute .bor ty 0 (fun _ _ => rfl) BitVec.or_comm (fun _ => BitVec.or_zero) hl hr

theorem simplifyBxor_sound (free : Free ty l r) (hl : eval ρ l = some a) (hr : eval ρ r = some b) :
    eval ρ (simplifyBxor ty l r) = some (a ^^^ b) :=
  eval_getD (eval_foldcnst free (fun _ _ => BitVec.setWidth_xor) hl hr) fun _ =>
    eval_commute .bxor ty 0 (fun _ _ => rfl) BitVec.xor_comm (fun _ => BitVec.xor_zero) hl hr

theorem foldcnst_none (none : foldcnst ty ty l r f = none) (tl : l.type = ty) (tr : r.type = ty) :
    ¬ (l.isConst ∧ r.isConst) := by
  rintro ⟨hl, hr⟩
  obtain ⟨s, x, rfl⟩ := isConst_iff.mp hl
  obtain ⟨s', y, rfl⟩ := isConst_iff.mp hr
  obtain rfl : s = ty := tl
  obtain rfl : s' = s := tr
  rw [foldcnst_eq_some.mpr ⟨x, y, rfl, rfl, rfl⟩] at none
  cases none

theorem simplifyBand_sound (free : Free ty l r) (tl : l.type = ty) (tr : r.type = ty)
    (hl : eval ρ l = some a)
    (hr : eval ρ r = some b) (left : l.const ty = some 255 → ¬ r.isConst → b &&& 255 = b)
    (right : r.const ty = some 255 → ¬ l.isConst → a &&& 255 = a) :
    eval ρ (simplifyBand ty l r) = some (a &&& b) := by
  have ordered {l r : Tree} {a b : Word} (hl : eval ρ l = some a) (hr : eval ρ r = some b)
      (right : r.const ty = some 255 → a &&& 255 = a) :
      eval ρ ((identity r l ty (ones (8 * size)) <|>
        if r.const ty = some 0 then some (Tree.right l (cnsttree ty 0)) else none).getD
          (.binary .band ty l r)) =
        some (a &&& b) := by
    refine eval_getD (eval_orElse (fun u found => ?_) fun u found => ?_) fun _ =>
      eval_binary .band ty hl hr
    · obtain ⟨rfl, rfl⟩ := identity_eq_some.mp found
      rw [ones_size] at right hr
      have mask : (255 : Word) = b := Option.some.inj hr
      rw [hl, ← mask, right (const_eq_some.mpr rfl)]
    · split at found <;> rename_i zero
      · cases found
        rw [const_eq_some] at zero
        subst zero
        have none : 0#16 = b := Option.some.inj hr
        rw [eval, hl, ← none, BitVec.and_zero]
        cases ty <;> rfl
      · cases found
  refine eval_getD (eval_foldcnst free (fun _ _ => BitVec.setWidth_and) hl hr) fun none => ?_
  have apart := foldcnst_none none tl tr
  rcases commute_cases r l with order | order <;> rw [order]
  · exact ordered hl hr fun mask => right mask fun other => apart ⟨other, isConst_of_const mask⟩
  · rw [BitVec.and_comm]
    exact ordered hr hl fun mask => left mask fun other => apart ⟨isConst_of_const mask, other⟩

/-! Constants in the range of their type. -/

theorem setWidth_toInt (v : Long) : v.setWidth 16 = BitVec.ofInt 16 v.toInt := by
  apply BitVec.eq_of_toInt_eq
  rw [BitVec.toInt_setWidth, BitVec.toInt_ofInt, BitVec.toInt_eq_toNat_bmod,
    Int.bmod_bmod_of_dvd (by decide)]

theorem toInt_word (operand : Operand .I (.cnst .I v)) : (v.setWidth 16).toInt = v.toInt := by
  obtain ⟨-, low, high⟩ := operand
  rw [minI_eq] at low
  rw [maxI_eq] at high
  rw [setWidth_toInt, BitVec.toInt_ofInt_eq_self] <;> omega

theorem toNat_word (operand : Operand .U (.cnst .U v)) : (v.setWidth 16).toNat = v.toNat := by
  obtain ⟨-, high⟩ := operand
  rw [maxU_eq] at high
  rw [BitVec.toNat_setWidth, Nat.mod_eq_of_lt (by omega)]

theorem toNat_count (operand : Operand .I (.cnst .I v)) (above : 0 ≤ v.toInt) :
    (v.setWidth 16).toNat = v.toNat := by
  have same := toInt_word operand
  obtain ⟨-, -, high⟩ := operand
  rw [maxI_eq] at high
  rw [BitVec.toInt_eq_toNat_cond] at above high
  rw [BitVec.toNat_setWidth, Nat.mod_eq_of_lt]
  split at above <;> omega

theorem operand_const (operand : Operand ty (.cnst s v)) : s = ty := operand.1

theorem eval_cfoldcnst {test : Long → Long → Bool} (test' : Word → Word → Bool)
    (same : ∀ x y, Operand s (.cnst s x) → Operand s (.cnst s y) →
      test x y = test' (x.setWidth 16) (y.setWidth 16))
    (ol : Operand s l) (or : Operand s r) (hl : eval ρ l = some a) (hr : eval ρ r = some b) :
    ∀ u, cfoldcnst s l r test = some u → eval ρ u = some (truth (test' a b)) := by
  intro u found
  obtain ⟨x, y, rfl, rfl, rfl⟩ := foldcnst_eq_some.mp found
  rw [← Option.some.inj hl, ← Option.some.inj hr, ← same x y ol or, eval_cnsttree_I]
  cases test x y <;> rfl

theorem sdiv_word {x y : Long} (ox : Operand .I (.cnst .I x)) (oy : Operand .I (.cnst .I y)) :
    (x.sdiv y).setWidth 16 = (x.setWidth 16).sdiv (y.setWidth 16) := by
  apply BitVec.eq_of_toInt_eq
  rw [setWidth_toInt, BitVec.toInt_ofInt, BitVec.toInt_sdiv, BitVec.toInt_sdiv, toInt_word ox,
    toInt_word oy,
    Int.bmod_bmod_of_dvd (by decide)]

theorem srem_word {x y : Long} (ox : Operand .I (.cnst .I x)) (oy : Operand .I (.cnst .I y)) :
    (x.srem y).setWidth 16 = (x.setWidth 16).srem (y.setWidth 16) := by
  rw [setWidth_toInt, BitVec.toInt_srem, ← toInt_word ox, ← toInt_word oy, ← BitVec.toInt_srem,
    BitVec.ofInt_toInt]

theorem sshiftRight_word {x : Long} (ox : Operand .I (.cnst .I x)) (n : Nat) :
    (x.sshiftRight n).setWidth 16 = (x.setWidth 16).sshiftRight n := by
  rw [setWidth_toInt, BitVec.toInt_sshiftRight, ← toInt_word ox]
  rfl

theorem eq_word {x y : Long} (ox : Operand s (.cnst s x)) (oy : Operand s (.cnst s y)) :
    x = y ↔ x.setWidth 16 = y.setWidth 16 := by
  cases s with
  | I => rw [← BitVec.toInt_inj, ← BitVec.toInt_inj, toInt_word ox, toInt_word oy]
  | U => rw [← BitVec.toNat_inj, ← BitVec.toNat_inj, toNat_word ox, toNat_word oy]

theorem lowest_pow2 {u : Nat} (positive : u ≠ 0) (single : u &&& (u - 1) = 0) :
    u = 2 ^ lowest u := by
  induction u using Nat.strongRecOn with
  | ind u ih =>
    rw [lowest, if_neg positive]
    by_cases odd : u % 2 = 1
    · have even : u &&& (u - 1) = u - 1 := by
        apply Nat.eq_of_testBit_eq
        intro i
        cases i with
        | zero => simp [Nat.testBit_zero]; omega
        | succ i =>
          have half : (u - 1) / 2 = u / 2 := by omega
          simp [Nat.testBit_succ, Nat.and_div_two, half]
      rw [if_pos odd]
      omega
    · have half : (u - 1) / 2 = u / 2 - 1 := by omega
      have rest : u / 2 &&& (u / 2 - 1) = 0 := by rw [← half, ← Nat.and_div_two, single]
      have whole := ih (u / 2) (by omega) (by omega) rest
      rw [if_neg odd, Nat.pow_succ, ← whole]
      omega

theorem ispow2_spec {u : Nat} (found : ispow2 u ≠ 0) : u = 2 ^ ispow2 u := by
  unfold ispow2 at found ⊢
  split <;> rename_i test
  · exact lowest_pow2 (by omega) test.2
  · simp [test] at found

/-! Shifts. -/

theorem sfoldcnst_eq_some {g : Long → Nat → Long} (found : sfoldcnst l r g = some u) :
    ∃ x y, l = .cnst .U x ∧ r = .cnst .I y ∧ 0 ≤ y.toInt ∧ y.toInt < 8 ∧
      u = cnsttree .U (g x y.toNat) := by
  simp only [sfoldcnst, Option.bind_eq_bind, Option.bind_eq_some_iff, const_eq_some] at found
  obtain ⟨x, hx, y, hy, found⟩ := found
  split at found <;> rename_i near
  · exact ⟨x, y, hx, hy, near.1, near.2, (Option.some.inj found).symm⟩
  · cases found

theorem simplifyLsh_sound (free : Free ty l r) (count : Operand .I r) (hl : eval ρ l = some a)
    (hr : eval ρ r = some b)
    (defined : b.toNat < 16) : eval ρ (simplifyLsh needconst ty l r) = some (a <<< b.toNat) := by
  have same {s : Ty} : ∀ u, identity r l s 0 = some u → eval ρ u = some (a <<< b.toNat) :=
    eval_identity (fun zero => by rw [← zero]; exact (BitVec.shiftLeft_zero a).symm) hr hl
  have rest : eval ρ (.binary .lsh ty l r) = some (a <<< b.toNat) := by
    rw [eval_binary .lsh ty hl hr, apply, if_pos defined]
  cases ty with
  | I =>
    refine eval_getD (eval_orElse same fun u found => ?_) fun _ => rest
    simp only [Option.bind_eq_bind, Option.bind_eq_some_iff, const_eq_some] at found
    obtain ⟨x, rfl, y, rfl, found⟩ := found
    split at found <;> rename_i near
    · cases found
      rw [eval_cnsttree_I, BitVec.setWidth_shiftLeft_of_le (by decide), ← Option.some.inj hl,
        ← Option.some.inj hr,
        toNat_count count near.1]
    · cases found
  | U =>
    refine eval_getD (eval_orElse same fun u found => ?_) fun _ => rest
    obtain ⟨x, y, rfl, rfl, -⟩ := sfoldcnst_eq_some found
    exact absurd ⟨rfl, rfl⟩ (free rfl)

theorem simplifyRsh_sound (free : Free ty l r) (number : Operand ty l) (count : Operand .I r)
    (hl : eval ρ l = some a)
    (hr : eval ρ r = some b) (defined : b.toNat < 16) (above : ty = .I → 0 ≤ a.toInt) :
    eval ρ (simplifyRsh ty l r) = apply .rsh ty a b := by
  have zero (same : (0 : Long).setWidth 16 = b) : b = 0#16 := same.symm
  cases ty with
  | I =>
    rw [apply, if_pos defined]
    refine eval_getD (eval_orElse (eval_identity (fun same => ?_) hr hl) fun u found => ?_)
      fun _ => ?_
    · rw [zero same]
      exact (BitVec.sshiftRight_zero (x := a)).symm
    · simp only [Option.bind_eq_bind, Option.bind_eq_some_iff, const_eq_some] at found
      obtain ⟨x, rfl, y, rfl, found⟩ := found
      have value : (x.setWidth 16).toInt = x.toInt := toInt_word number
      rw [Option.some.inj hl] at value
      have positive : ¬ x.toInt < 0 := by
        rw [← value]
        exact Int.not_lt.mpr (above rfl)
      split at found <;> rename_i near
      · cases found
        rw [eval_cnsttree_I, sshiftRight_word number, ← Option.some.inj hl, ← Option.some.inj hr,
          toNat_count count near.1]
      · cases found
    · rw [eval_binary .rsh .I hl hr, apply, if_pos defined]
  | U =>
    rw [apply, if_pos defined]
    refine eval_getD (eval_orElse (eval_identity (fun same => ?_) hr hl) fun u found => ?_)
      fun _ => ?_
    · rw [zero same]
      exact (BitVec.ushiftRight_zero (x := a)).symm
    · obtain ⟨x, y, rfl, rfl, -⟩ := sfoldcnst_eq_some found
      exact absurd ⟨rfl, rfl⟩ (free rfl)
    · rw [eval_binary .rsh .U hl hr, apply, if_pos defined]

theorem count_operand {n : Nat} (small : n < 16) : Operand .I (cnsttree .I (.ofNat 64 n)) ∧
    ∀ ρ, eval ρ (cnsttree .I (.ofNat 64 n)) = some (.ofNat 16 n) := by
  have every : ∀ k : Fin 16, minI ≤ (BitVec.ofNat 64 k.val).toInt ∧
    (BitVec.ofNat 64 k.val).toInt ≤ maxI ∧
      (BitVec.ofNat 64 k.val).setWidth 16 = BitVec.ofNat 16 k.val := by decide +kernel
  obtain ⟨low, high, word⟩ := every ⟨n, small⟩
  exact ⟨⟨rfl, low, high⟩, fun ρ => congrArg some word⟩

/-! Products. -/

theorem pow2_count {x : Long} (operand : Operand ty (.cnst ty x)) (found : ispow2 x.toNat ≠ 0)
    (above : ty = .I → 0 < x.toInt) :
    ispow2 x.toNat < 16 ∧ x.setWidth 16 = BitVec.twoPow 16 (ispow2 x.toNat) := by
  have whole := ispow2_spec found
  have bound : x.toNat < 2 ^ 16 := by
    obtain ⟨-, range⟩ := operand
    cases ty with
    | U => exact Nat.lt_succ_of_le range
    | I =>
      have high := range.2
      have positive := above rfl
      rw [maxI_eq] at high
      rw [BitVec.toInt_eq_toNat_cond] at high positive
      split at positive <;> omega
  rw [whole] at bound
  have small : ispow2 x.toNat < 16 := (Nat.pow_lt_pow_iff_right (by decide)).mp bound
  refine ⟨small, BitVec.eq_of_toNat_eq ?_⟩
  rw [BitVec.toNat_setWidth, BitVec.toNat_twoPow, ← whole]

theorem mulPow2_sound {x : Long} (operand : Operand .I (.cnst .I x)) (hr : eval ρ r = some b) :
    eval ρ (mulPow2 needconst x r) = some (x.setWidth 16 * b) := by
  simp only [mulPow2]
  split <;> rename_i test
  · obtain ⟨small, word⟩ := pow2_count operand test.2 fun _ => test.1
    obtain ⟨count, value⟩ := count_operand small
    have number : (BitVec.ofNat 16 (ispow2 x.toNat)).toNat = ispow2 x.toNat :=
      Nat.mod_eq_of_lt (by omega)
    rw [simplifyLsh_sound (fun h => by cases h) count hr (value ρ) (by omega), number,
      BitVec.shiftLeft_eq_mul_twoPow,
      BitVec.mul_comm, word]
  · refine eval_getD (eval_identity (fun one => ?_) hr rfl) fun _ => eval_binary .mul .I rfl hr
    rw [← one]
    exact (BitVec.mul_one _).symm

theorem mulConst_sound {x : Long} (operand : Operand .I (.cnst .I x)) (hr : eval ρ r = some b) :
    eval ρ (mulConst needconst x r) = some (x.setWidth 16 * b) := by
  have low (y : Long) : (x * y).setWidth 16 = x.setWidth 16 * y.setWidth 16 :=
    BitVec.setWidth_mul x y (by decide)
  fun_induction mulConst needconst x r generalizing b with
  | case1 y fits =>
    rw [eval_cnsttree_I, low, Option.some.inj hr]
  | case2 y wide => exact mulPow2_sound operand hr
  | case3 t c ih ihc =>
    simp only [eval, Option.bind_eq_some_iff] at hr
    obtain ⟨a, ha, d, hd, sum⟩ := hr
    rw [simplifyAdd_sound (fun h => by cases h) (ih ha) (ihc hd), ← BitVec.mul_add,
      Option.some.inj sum]
  | case4 t c ih ihc =>
    simp only [eval, Option.bind_eq_some_iff] at hr
    obtain ⟨a, ha, d, hd, sum⟩ := hr
    rw [simplifySub_sound (fun h => by cases h) (ih ha) (ihc hd), ← BitVec.mul_sub,
      Option.some.inj sum]
  | case5 => exact mulPow2_sound operand hr

theorem commuted (l r : Tree) : (commute l r = (l, r) ∧ (r.isConst → l.isConst)) ∨
    (commute l r = (r, l) ∧ r.isConst ∧ ¬ l.isConst) := by
  rw [commute]
  cases l.isConst <;> cases r.isConst <;> simp

theorem Free.symm (free : Free ty l r) : Free ty r l := fun unsigned both => free unsigned both.symm

theorem ispow2_zero : ispow2 0 = 0 := rfl

theorem unsigned_const (found : ispow2 ((t.const .U).elim 0 (·.toNat)) ≠ 0) : ∃ x, t = .cnst .U x ∧
    ispow2 x.toNat ≠ 0 := by
  cases const : t.const .U with
  | none =>
    rw [const] at found
    exact absurd ispow2_zero found
  | some x =>
    rw [const] at found
    exact ⟨x, const_eq_some.mp const, found⟩

theorem simplifyMul_sound (free : Free ty l r) (ol : Operand ty l) (or : Operand ty r)
    (hl : eval ρ l = some a)
    (hr : eval ρ r = some b) : eval ρ (simplifyMul needconst ty l r) = some (a * b) := by
  -- the constant is on the left
  have ordered {l r : Tree} {a b : Word} (free : Free ty l r) (ol : Operand ty l)
    (hl : eval ρ l = some a)
      (hr : eval ρ r = some b) (order : commute l r = (l, r)) :
        eval ρ (simplifyMul needconst ty l r) = some (a * b) := by
    cases ty with
    | I =>
      simp only [simplifyMul, order]
      split <;> rename_i x
      · rw [mulConst_sound ol hr, Option.some.inj hl]
      · refine eval_getD (eval_identity (fun one => ?_) hr hl) fun _ => eval_binary .mul .I hl hr
        rw [← one]
        exact (BitVec.mul_one _).symm
    | U =>
      simp only [simplifyMul, order]
      split <;> rename_i test
      · obtain ⟨x, rfl, found⟩ := unsigned_const test
        obtain ⟨small, word⟩ := pow2_count ol found (fun h => by cases h)
        obtain ⟨count, value⟩ := count_operand small
        have number : (BitVec.ofNat 16 (ispow2 x.toNat)).toNat = ispow2 x.toNat :=
          Nat.mod_eq_of_lt (by omega)
        have other : Free .U r (cnsttree .I (.ofNat 64 (ispow2 x.toNat))) :=
          fun h both => free h ⟨rfl, both.1⟩
        refine (simplifyLsh_sound other count hr (value ρ) (by omega)).trans ?_
        rw [number, BitVec.shiftLeft_eq_mul_twoPow, BitVec.mul_comm, ← word, Option.some.inj hl]
      · have low (x y : Long) : (x * y).setWidth 16 = x.setWidth 16 * y.setWidth 16 :=
          BitVec.setWidth_mul x y (by decide)
        refine eval_getD (eval_orElse (eval_foldcnst free low hl hr)
          (eval_identity (fun one => ?_) hr hl))
          fun _ => eval_binary .mul .U hl hr
        rw [← one]
        exact (BitVec.mul_one _).symm
  rcases commuted l r with ⟨order, -⟩ | ⟨order, const, other⟩
  · exact ordered free ol hl hr order
  · have back : commute r l = (r, l) := by simp [commute, other]
    have same : simplifyMul needconst ty l r = simplifyMul needconst ty r l := by
      cases ty <;> simp only [simplifyMul, order, back]
    rw [same, BitVec.mul_comm]
    exact ordered free.symm or hr hl back

/-! Quotients and remainders. -/

theorem undefined_test (ol : Operand .I l) (or : Operand .I r) (hl : eval ρ l = some a)
    (hr : eval ρ r = some b)
    (defined : ¬ (b = 0 ∨ a.toInt = minI ∧ b.toInt = -1)) :
    ¬ (r.const .I = some 0 ∨ (l.const .I).map (·.toInt) = some minI ∧
      (r.const .I).map (·.toInt) = some (-1)) := by
  rintro (zero | ⟨low, one⟩)
  · rw [const_eq_some] at zero
    subst zero
    exact defined (.inl (Option.some.inj hr).symm)
  · obtain ⟨x, hx, least⟩ := Option.map_eq_some_iff.mp low
    obtain ⟨y, hy, minus⟩ := Option.map_eq_some_iff.mp one
    rw [const_eq_some] at hx hy
    subst hx hy
    refine defined (.inr ⟨?_, ?_⟩)
    · rw [← least, ← toInt_word ol, Option.some.inj hl]
    · rw [← minus, ← toInt_word or, Option.some.inj hr]

theorem simplifyDiv_sound (free : Free ty l r) (ol : Operand ty l) (or : Operand ty r)
    (hl : eval ρ l = some a)
    (hr : eval ρ r = some b) (defined : (apply .div ty a b).isSome) :
    eval ρ (simplifyDiv needconst ty l r) = apply .div ty a b := by
  have rest : eval ρ (.binary .div ty l r) = apply .div ty a b := eval_binary .div ty hl hr
  cases ty with
  | I =>
    have fine : ¬ (b = 0 ∨ a.toInt = minI ∧ b.toInt = -1) := by
      intro none
      rw [apply, if_pos none] at defined
      cases defined
    have meaning : apply .div .I a b = some (a.sdiv b) := if_neg fine
    have test := undefined_test ol or hl hr fine
    rw [meaning] at rest ⊢
    refine eval_getD (eval_identity (fun one => ?_) hr hl) fun _ => ?_
    · rw [← one]
      exact (BitVec.sdiv_one).symm
    · rw [if_neg test]
      refine eval_getD (fun u found => ?_) fun _ => rest
      obtain ⟨x, y, rfl, rfl, rfl⟩ := xfoldcnst_eq_some found
      rw [eval_cnsttree_I, sdiv_word ol or, Option.some.inj hl, Option.some.inj hr]
  | U =>
    have fine : b ≠ 0 := by
      intro none
      rw [apply, if_pos none] at defined
      cases defined
    have meaning : apply .div .U a b = some (a / b) := if_neg fine
    rw [meaning] at rest ⊢
    refine eval_getD (eval_identity (fun one => ?_) hr hl) fun _ => ?_
    · rw [← one]
      exact (BitVec.udiv_one).symm
    · split
      · exact rest
      · dsimp only
        split <;> rename_i test
        · obtain ⟨y, rfl, found⟩ := unsigned_const test
          obtain ⟨small, word⟩ := pow2_count or found (fun h => by cases h)
          obtain ⟨count, value⟩ := count_operand small
          have number : (BitVec.ofNat 16 (ispow2 y.toNat)).toNat = ispow2 y.toNat :=
            Nat.mod_eq_of_lt (by omega)
          have other : Free .U l (cnsttree .I (.ofNat 64 (ispow2 y.toNat))) :=
            fun h both => free h ⟨both.1, rfl⟩
          refine (simplifyRsh_sound other ol count hl (value ρ)
            (by omega) fun h => by cases h).trans ?_
          rw [apply, number, if_pos small, ← Option.some.inj hr, word]
          congr 1
          apply BitVec.eq_of_toNat_eq
          rw [BitVec.toNat_ushiftRight, BitVec.toNat_udiv, BitVec.toNat_twoPow,
            Nat.shiftRight_eq_div_pow,
            Nat.mod_eq_of_lt (Nat.pow_lt_pow_right (by decide) small)]
        · refine eval_getD (fun u found => ?_) fun _ => rest
          obtain ⟨x, y, rfl, rfl, -⟩ := foldcnst_eq_some.mp found
          exact absurd ⟨rfl, rfl⟩ (free rfl)

theorem cast_same (same : t.type = ty) : cast needconst t ty = t := if_pos same

theorem simplifyBand_mask (other : ¬ l.isConst) :
    simplifyBand ty l (.cnst ty 255) = l ∧ simplifyBand ty (.cnst ty 255) l = l := by
  have order : commute (.cnst ty 255) l = (.cnst ty 255, l) := by simp [commute, Tree.isConst]
  have order' : commute l (.cnst ty 255) = (.cnst ty 255, l) := by
    rw [commute, if_pos]
    simpa [Tree.isConst] using other
  have fold : foldcnst ty ty l (.cnst ty 255) (· &&& ·) = none := by
    rw [Option.eq_none_iff_forall_ne_some]
    intro u found
    obtain ⟨x, y, rfl, -⟩ := foldcnst_eq_some.mp found
    exact other rfl
  have fold' : foldcnst ty ty (.cnst ty 255) l (· &&& ·) = none := by
    rw [Option.eq_none_iff_forall_ne_some]
    intro u found
    obtain ⟨x, y, -, rfl, -⟩ := foldcnst_eq_some.mp found
    exact other rfl
  have dropped : identity (.cnst ty 255) l ty (ones (8 * size)) = some l := by
    rw [identity_eq_some, ones_size]
    exact ⟨rfl, rfl⟩
  constructor
  · simp only [simplifyBand, fold, order, dropped]
    rfl
  · simp only [simplifyBand, fold', order', dropped]
    rfl

theorem bittree_unsigned (l : Tree) (v : Long) :
    bittree needconst l (cnsttree .U v) = simplifyBand .U (cast needconst l .U)
      (cnsttree .U v) := by
  have both : binaryType l.type (cnsttree .U v).type = .U := if_pos (.inr rfl)
  rw [bittree, both]
  rfl

theorem pow2_mask {n : Nat} (small : n < 16) (some : n ≠ 0) :
    if n < 8 then (BitVec.ofNat 64 (2 ^ n - 1) &&& ones (8 * size)) ≠ 255 ∧
      (BitVec.ofNat 64 (2 ^ n - 1) &&& ones (8 * size)).setWidth 16 = BitVec.ofNat 16 (2 ^ n - 1)
    else (BitVec.ofNat 64 (2 ^ n - 1) &&& ones (8 * size)) = 255 := by
  have every : ∀ k : Fin 16, k.val ≠ 0 →
    if k.val < 8 then (BitVec.ofNat 64 (2 ^ k.val - 1) &&& ones (8 * size)) ≠ 255 ∧
      (BitVec.ofNat 64 (2 ^ k.val - 1) &&& ones (8 * size)).setWidth 16 = BitVec.ofNat 16
      (2 ^ k.val - 1)
      else (BitVec.ofNat 64 (2 ^ k.val - 1) &&& ones (8 * size)) = 255 := by decide +kernel
  exact every ⟨n, small⟩ some

theorem mod_wide {y : Long} (other : ¬ l.isConst) (ol : Operand .U l) (or : Operand .U (.cnst .U y))
    (wide : 8 ≤ ispow2 y.toNat) :
      bittree needconst l (cnsttree .U (.ofNat 64 (y.toNat - 1))) = l := by
  have found : ispow2 y.toNat ≠ 0 := by omega
  obtain ⟨small, -⟩ := pow2_count or found (fun h => by cases h)
  have here := pow2_mask small found
  rw [← ispow2_spec found, if_neg (by omega)] at here
  have masked : cnsttree .U (.ofNat 64 (y.toNat - 1)) = .cnst .U 255 := congrArg (Tree.cnst .U) here
  rw [bittree_unsigned, cast_same ol.1, masked]
  exact (simplifyBand_mask other).1

theorem mod_pow2_sound {y : Long} (other : ¬ l.isConst) (ol : Operand .U l)
    (or : Operand .U (.cnst .U y))
    (hl : eval ρ l = some a) (found : ispow2 y.toNat ≠ 0)
    (modulus : 8 ≤ ispow2 y.toNat → a.toNat < y.toNat) :
    eval ρ (bittree needconst l (cnsttree .U (.ofNat 64 (y.toNat - 1)))) = some
      (a % y.setWidth 16) := by
  obtain ⟨small, word⟩ := pow2_count or found (fun h => by cases h)
  have whole := ispow2_spec found
  by_cases wide : 8 ≤ ispow2 y.toNat
  · rw [mod_wide other ol or wide, hl]
    congr 1
    apply BitVec.eq_of_toNat_eq
    rw [BitVec.toNat_umod, toNat_word or, Nat.mod_eq_of_lt (modulus wide)]
  · have here := pow2_mask small found
    rw [← whole, if_pos (by omega)] at here
    obtain ⟨differs, mask⟩ := here
    have free : Free .U l (cnsttree .U (.ofNat 64 (y.toNat - 1))) := fun _ both => other both.1
    rw [bittree_unsigned, cast_same ol.1, simplifyBand_sound free ol.1 rfl hl (congrArg some mask)
      (fun h => absurd (isConst_of_const h) other) fun h => absurd (Option.some.inj h) differs]
    congr 1
    apply BitVec.eq_of_toNat_eq
    have bound : 2 ^ ispow2 y.toNat ≤ 2 ^ 15 := Nat.pow_le_pow_right (by decide) (by omega)
    rw [BitVec.toNat_and, BitVec.toNat_umod, toNat_word or, BitVec.toNat_ofNat,
      Nat.mod_eq_of_lt (by omega), whole,
      Nat.and_two_pow_sub_one_eq_mod]

theorem simplifyMod_sound (free : Free ty l r) (ol : Operand ty l) (or : Operand ty r)
    (hl : eval ρ l = some a)
    (hr : eval ρ r = some b) (defined : (apply .mod ty a b).isSome)
    (modulus : ∀ y, r.const .U = some y → 8 ≤ ispow2 y.toNat → ¬ l.isConst → a.toNat < y.toNat) :
    eval ρ (simplifyMod needconst ty l r) = apply .mod ty a b := by
  have rest : eval ρ (.binary .mod ty l r) = apply .mod ty a b := eval_binary .mod ty hl hr
  cases ty with
  | I =>
    have fine : ¬ (b = 0 ∨ a.toInt = minI ∧ b.toInt = -1) := by
      intro none
      rw [apply, if_pos none] at defined
      cases defined
    have meaning : apply .mod .I a b = some (a.srem b) := if_neg fine
    rw [meaning] at rest ⊢
    rw [simplifyMod, if_neg (undefined_test ol or hl hr fine)]
    refine eval_getD (eval_orElse (fun u found => ?_) fun u found => ?_) fun _ => rest
    · obtain ⟨x, y, rfl, rfl, rfl⟩ := xfoldcnst_eq_some found
      rw [eval_cnsttree_I, srem_word ol or, Option.some.inj hl, Option.some.inj hr]
    · split at found <;> rename_i one
      · cases found
        rw [const_eq_some] at one
        subst one
        have unit : 1#16 = b := Option.some.inj hr
        rw [eval, hl, ← unit, BitVec.srem_one]
        rfl
      · cases found
  | U =>
    have fine : b ≠ 0 := by
      intro none
      rw [apply, if_pos none] at defined
      cases defined
    have meaning : apply .mod .U a b = some (a % b) := if_neg fine
    rw [meaning] at rest ⊢
    simp only [simplifyMod]
    split <;> rename_i test
    · obtain ⟨y, rfl, found⟩ := unsigned_const test
      have other : ¬ l.isConst := fun const => free rfl ⟨const, rfl⟩
      rw [← Option.some.inj hr]
      exact mod_pow2_sound other ol or hl found fun wide => modulus y rfl wide other
    · split
      · exact rest
      · refine eval_getD (fun u found => ?_) fun _ => rest
        obtain ⟨x, y, rfl, rfl, -⟩ := foldcnst_eq_some.mp found
        exact absurd ⟨rfl, rfl⟩ (free rfl)

/-! Comparisons. -/

/-- The bits of a field in the word that it is read from. -/
def mask (right size : Nat) : Long :=
  (fieldmask size).setWidth 64 <<< right &&& ones (8 * Simp.size)

theorem mask_bits {right size : Nat} (inside : right + size ≤ 8) (narrow : size < 8) (i : Nat)
    (less : i < 16) :
    ((mask right size).setWidth 16).getLsbD i = decide (right ≤ i ∧ i < right + size) := by
  have every : ∀ (k : Fin 8) (right : Fin 9) (i : Fin 16), right.val + k.val ≤ 8 →
      ((mask right.val k.val).setWidth 16).getLsbD i.val = decide
      (right.val ≤ i.val ∧ i.val < right.val + k.val) := by
    decide +kernel
  exact every ⟨size, narrow⟩ ⟨right, by omega⟩ ⟨i, less⟩ inside

theorem bits_zero {right size : Nat} (positive : 0 < size) (small : size ≤ 16) (w : Word) :
    bits ty right size w = 0 ↔ ∀ k < size, w.getLsbD (right + k) = false := by
  constructor
  · intro zero k less
    have bit : (bits ty right size w).getLsbD k = false := by
      rw [zero]
      exact BitVec.getLsbD_zero
    have inside : k < 16 := by omega
    cases ty with
    | I => simpa only [bits, BitVec.getLsbD_signExtend, BitVec.getLsbD_extractLsb', less, inside,
      decide_true,
        Bool.true_and, if_true] using bit
    | U => simpa only [bits, BitVec.getLsbD_setWidth, BitVec.getLsbD_extractLsb', less, inside,
      decide_true,
        Bool.true_and] using bit
  · intro clear
    apply BitVec.eq_of_getLsbD_eq
    intro i less
    cases ty with
    | I =>
      have last := clear (size - 1) (by omega)
      simp only [bits, BitVec.getLsbD_signExtend, BitVec.msb_eq_getLsbD_last,
        BitVec.getLsbD_extractLsb']
      grind
    | U =>
      simp only [bits, BitVec.getLsbD_setWidth, BitVec.getLsbD_extractLsb']
      grind

theorem field_masked {right size : Nat} (positive : 0 < size) (inside : right + size ≤ 8)
    (narrow : size < 8) (w : Word) :
    (bits ty right size w == 0) = (w &&& (mask right size).setWidth 16 == 0) := by
  rw [Bool.eq_iff_iff, beq_iff_eq, beq_iff_eq, bits_zero positive (by omega)]
  constructor
  · intro clear
    apply BitVec.eq_of_getLsbD_eq
    intro i less
    rw [BitVec.getLsbD_and, mask_bits inside narrow i less]
    by_cases here : right ≤ i ∧ i < right + size
    · have bit := clear (i - right) (by omega)
      rw [Nat.add_sub_cancel' here.1] at bit
      rw [bit, Bool.false_and]
      exact BitVec.getLsbD_zero.symm
    · rw [decide_eq_false here, Bool.and_false]
      exact BitVec.getLsbD_zero.symm
  · intro zero k less
    have bit := congrArg (·.getLsbD (right + k)) zero
    simp only [BitVec.getLsbD_and, mask_bits inside narrow (right + k) (by omega)] at bit
    simpa [less] using bit

theorem apply_relation (negated : Bool) (s : Ty) (a b : Word) :
    apply (relation negated) s a b = some (truth ((a == b) != negated)) := by
  cases negated <;> simp [relation, apply, bne]

theorem eqPlain_masked {negated : Bool} (type : t.type = .U) (other : ¬ t.isConst)
    (zero : r = .cnst s 0) :
    simplifyEqPlain negated (binaryType t.type r.type) (cast needconst t (binaryType t.type r.type))
      (cast needconst r (binaryType t.type r.type)) = .binary (relation negated) .U t
      (.cnst .U 0) := by
  have both : binaryType t.type r.type = .U := if_pos (.inl type)
  have operand : cast needconst r .U = .cnst .U 0 := by
    rw [zero]
    cases s <;> cases needconst <;> decide
  have fold {test : Long → Long → Bool} : cfoldcnst .U t (.cnst .U 0) test = none := by
    rw [Option.eq_none_iff_forall_ne_some]
    intro u found
    obtain ⟨x, y, rfl, -⟩ := foldcnst_eq_some.mp found
    exact other rfl
  have order : commute (.cnst .U 0) t = (.cnst .U 0, t) := by simp [commute, Tree.isConst]
  simp only [both, cast_same type, operand, simplifyEqPlain, fold, order]
  rfl

theorem bittree_masked {v : Long} (other : ¬ (cast needconst l .U).isConst)
    (notNone : v &&& ones (8 * size) ≠ 0)
    (notAll : v &&& ones (8 * size) ≠ 255) : bittree needconst l (cnsttree .U v) =
      .binary .band .U (cast needconst l .U) (.cnst .U (v &&& ones (8 * size))) := by
  rw [bittree_unsigned]
  generalize cast needconst l .U = t at other
  have fold : foldcnst .U .U t (cnsttree .U v) (· &&& ·) = none := by
    rw [Option.eq_none_iff_forall_ne_some]
    intro u found
    obtain ⟨x, y, rfl, -⟩ := foldcnst_eq_some.mp found
    exact other rfl
  have order : commute (cnsttree .U v) t =
    (cnsttree .U v, t) := by simp [commute, cnsttree, Tree.isConst]
  have known : (cnsttree .U v).const .U = some (v &&& ones (8 * size)) := rfl
  have mask : identity (cnsttree .U v) t .U (ones (8 * size)) = none :=
    if_neg fun same => notAll (Option.some.inj (known.symm.trans same))
  have empty : ¬ (cnsttree .U v).const .U = some 0 :=
    fun same => notNone (Option.some.inj (known.symm.trans same))
  simp only [simplifyBand, fold, order, mask, if_neg empty]
  rfl

/-- A field of eight bits is compared as the whole word. -/
def Tree.WholeField : Tree → Prop
  | .field _ _ size _ => size = 8
  | _ => False

theorem zerofield_sound {negated : Bool} (ol : Operand s l)
    (narrow : r.const s = some 0 → ¬ l.WholeField)
    (hl : eval ρ l = some a) (hr : eval ρ r = some b) :
    ∀ u, zerofield needconst negated s l r = some u →
      eval ρ u = some (truth ((a == b) != negated)) := by
  intro u found
  cases l with
  | cnst | leaf | unary | binary | right => cases found
  | field ty right size n =>
    simp only [zerofield] at found
    split at found <;> rename_i zero
    · obtain ⟨-, positive, inside⟩ := ol
      have few : size < 8 := by
        have whole := narrow zero
        simp only [Tree.WholeField] at whole
        have unit : 8 * Simp.size = 8 := rfl
        omega
      rw [const_eq_some] at zero
      have every : ∀ (k : Fin 8) (right : Fin 9), 0 < k.val → right.val + k.val ≤ 8 →
          mask right.val k.val ≠ 0 ∧ mask right.val k.val ≠ 255 := by decide +kernel
      have unit : 8 * Simp.size = 8 := rfl
      obtain ⟨notNone, notAll⟩ := every ⟨size, few⟩ ⟨right, by omega⟩ positive inside
      have word : (cast needconst (.leaf ty n) .U).type = .U ∧
        ¬ (cast needconst (.leaf ty n) .U).isConst ∧
          eval ρ (cast needconst (.leaf ty n) .U) = some (ρ n) := by
        cases ty <;> exact ⟨rfl, Bool.false_ne_true, rfl⟩
      obtain ⟨type, other, value⟩ := word
      have plain : simplifyEqPlain negated _
          (cast needconst (.binary .band .U (cast needconst (.leaf ty n) .U)
            (.cnst .U (mask right size))) _)
          (cast needconst r _) = _ := eqPlain_masked rfl Bool.false_ne_true zero
      rw [bittree_masked other notNone notAll] at found
      rw [Option.some.injEq] at found
      have final := plain.symm.trans found
      subst zero
      have none : (0 : Word) = b := Option.some.inj hr
      have masked := eval_binary (r := .cnst .U (mask right size)) .band .U value rfl
      rw [← final, eval_binary (relation negated) .U masked rfl, apply_relation,
        ← Option.some.inj hl, ← none,
        field_masked positive (by omega) few]
      rfl
    · cases found

theorem simplifyEq_sound {negated : Bool} (ol : Operand s l) (or : Operand s r)
    (left : r.const s = some 0 → ¬ l.WholeField)
    (right : l.const s = some 0 → ¬ r.WholeField) (hl : eval ρ l = some a)
    (hr : eval ρ r = some b) :
    eval ρ (simplifyEq needconst negated s l r) = some (truth ((a == b) != negated)) := by
  have same (x y : Long) (ox : Operand s (.cnst s x)) (oy : Operand s (.cnst s y)) :
      ((x == y) != negated) = ((x.setWidth 16 == y.setWidth 16) != negated) := by
    rw [show (x == y) = (x.setWidth 16 == y.setWidth 16) from Bool.eq_iff_iff.mpr
      (by simpa using eq_word ox oy)]
  refine eval_getD (eval_cfoldcnst (fun a b => (a == b) != negated) same ol or hl hr) fun _ => ?_
  rcases commute_cases r l with order | order <;> rw [order]
  · refine eval_getD (zerofield_sound ol left hl hr) fun _ => ?_
    rw [eval_binary _ _ hl hr, apply_relation]
  · rw [BEq.comm]
    refine eval_getD (zerofield_sound or right hr hl) fun _ => ?_
    rw [eval_binary _ _ hr hl, apply_relation]

theorem eqtree_sound {negated : Bool} (ol : Operand .U l) (or : Operand .U r)
    (left : r.const .U = some 0 → ¬ l.WholeField)
    (right : l.const .U = some 0 → ¬ r.WholeField) (hl : eval ρ l = some a)
    (hr : eval ρ r = some b) :
    eval ρ (eqtree needconst negated l r) = some (truth ((a == b) != negated)) := by
  have both : binaryType l.type r.type = .U := if_pos (.inl ol.1)
  simp only [eqtree, both, cast_same ol.1, cast_same or.1]
  exact simplifyEq_sound ol or left right hl hr

theorem geu_eq_some (found : geu l r v = some u) : r = .cnst .U 0 ∧
    u = .right l (cnsttree .I v) := by
  rw [geu] at found
  split at found <;> rename_i zero
  · exact ⟨const_eq_some.mp zero, (Option.some.inj found).symm⟩
  · cases found

theorem eval_geu {c : Bool} (hl : eval ρ l = some a) (hr : eval ρ r = some b)
    (always : b = 0 → truth c = v.setWidth 16) :
    ∀ u, geu l r v = some u → eval ρ u = some (truth c) := by
  intro u found
  obtain ⟨rfl, rfl⟩ := geu_eq_some found
  rw [eval, hl, always (Option.some.inj hr).symm]
  rfl

theorem eval_if {p : Prop} [Decidable p] (holds : p → eval ρ t = some w) :
    ∀ u, (if p then some t else none) = some u → eval ρ u = some w := by
  intro u found
  split at found <;> rename_i test
  · cases found
    exact holds test
  · cases found

theorem zero_of_const (zero : t.const s = some 0) (ht : eval ρ t = some a) : a = 0 := by
  rw [const_eq_some.mp zero] at ht
  exact (Option.some.inj ht).symm

theorem ule_word {x y : Long} (ox : Operand .U (.cnst .U x)) (oy : Operand .U (.cnst .U y)) :
    x.ule y = (x.setWidth 16).ule (y.setWidth 16) := by
  rw [BitVec.ule, BitVec.ule, toNat_word ox, toNat_word oy]

theorem ult_word {x y : Long} (ox : Operand .U (.cnst .U x)) (oy : Operand .U (.cnst .U y)) :
    x.ult y = (x.setWidth 16).ult (y.setWidth 16) := by
  rw [BitVec.ult, BitVec.ult, toNat_word ox, toNat_word oy]

theorem sle_word {x y : Long} (ox : Operand .I (.cnst .I x)) (oy : Operand .I (.cnst .I y)) :
    x.sle y = (x.setWidth 16).sle (y.setWidth 16) := by
  rw [BitVec.sle, BitVec.sle, toInt_word ox, toInt_word oy]

theorem slt_word {x y : Long} (ox : Operand .I (.cnst .I x)) (oy : Operand .I (.cnst .I y)) :
    x.slt y = (x.setWidth 16).slt (y.setWidth 16) := by
  rw [BitVec.slt, BitVec.slt, toInt_word ox, toInt_word oy]

theorem zero_ule (a : Word) : (0 : Word).ule a = true := by simp [BitVec.ule]

theorem not_ult_zero (a : Word) : a.ult 0 = false := by simp [BitVec.ult]

theorem ule_zero (a : Word) : a.ule 0 = (a == 0) := by
  rw [Bool.eq_iff_iff, BitVec.ule_iff_toNat_le, beq_iff_eq, ← BitVec.toNat_inj]
  exact Nat.le_zero

theorem zero_ult (a : Word) : (0 : Word).ult a = (a != 0) := by
  rw [Bool.eq_iff_iff, BitVec.ult_iff_toNat_lt, bne_iff_ne, ne_eq, ← BitVec.toNat_inj]
  exact Nat.pos_iff_ne_zero

theorem const_not_whole (found : t.const s = some v) : ¬ t.WholeField := by
  rw [const_eq_some.mp found]
  exact id

/-! An unsigned comparison with a constant zero on the one side is constant, and on the
other side EQ or NE. -/

theorem ge_sound (ol : Operand .U l) (or : Operand .U r)
    (whole : l.const .U = some 0 → ¬ r.WholeField)
    (hl : eval ρ l = some a) (hr : eval ρ r = some b) :
    eval ρ (simplify needconst .ge .U l r) = some (truth (b.ule a)) := by
  refine eval_getD (eval_orElse (eval_geu hl hr fun zero => ?_)
    (eval_orElse (eval_cfoldcnst (fun a b => b.ule a)
    (fun x y ox oy => ule_word oy ox) ol or hl hr) (eval_if fun zero => ?_))) fun _ =>
      eval_binary .ge .U hl hr
  · rw [zero, zero_ule]
    rfl
  · rw [eqtree_sound or ol whole (fun _ => const_not_whole zero) hr hl, zero_of_const zero hl,
      ule_zero, Bool.bne_false]

theorem gt_sound (ol : Operand .U l) (or : Operand .U r)
    (whole : r.const .U = some 0 → ¬ l.WholeField)
    (hl : eval ρ l = some a) (hr : eval ρ r = some b) :
    eval ρ (simplify needconst .gt .U l r) = some (truth (b.ult a)) := by
  refine eval_getD (eval_orElse (eval_geu hr hl fun zero => ?_)
    (eval_orElse (eval_cfoldcnst (fun a b => b.ult a)
    (fun x y ox oy => ult_word oy ox) ol or hl hr) (eval_if fun zero => ?_))) fun _ =>
      eval_binary .gt .U hl hr
  · rw [zero, not_ult_zero]
    rfl
  · rw [eqtree_sound ol or whole (fun _ => const_not_whole zero) hl hr, zero_of_const zero hr,
      zero_ult, Bool.bne_true]
    rfl

theorem le_sound (ol : Operand .U l) (or : Operand .U r)
    (whole : r.const .U = some 0 → ¬ l.WholeField)
    (hl : eval ρ l = some a) (hr : eval ρ r = some b) :
    eval ρ (simplify needconst .le .U l r) = some (truth (a.ule b)) := by
  refine eval_getD (eval_orElse (eval_geu hr hl fun zero => ?_)
    (eval_orElse (eval_cfoldcnst (fun a b => a.ule b)
    (fun x y => ule_word) ol or hl hr) (eval_if fun zero => ?_))) fun _ => eval_binary .le .U hl hr
  · rw [zero, zero_ule]
    rfl
  · rw [eqtree_sound ol or whole (fun _ => const_not_whole zero) hl hr, zero_of_const zero hr,
      ule_zero, Bool.bne_false]

theorem lt_sound (ol : Operand .U l) (or : Operand .U r)
    (whole : l.const .U = some 0 → ¬ r.WholeField)
    (hl : eval ρ l = some a) (hr : eval ρ r = some b) :
    eval ρ (simplify needconst .lt .U l r) = some (truth (a.ult b)) := by
  refine eval_getD (eval_orElse (eval_geu hl hr fun zero => ?_)
    (eval_orElse (eval_cfoldcnst (fun a b => a.ult b)
    (fun x y => ult_word) ol or hl hr) (eval_if fun zero => ?_))) fun _ => eval_binary .lt .U hl hr
  · rw [zero, not_ult_zero]
    rfl
  · rw [eqtree_sound or ol whole (fun _ => const_not_whole zero) hr hl, zero_of_const zero hl,
      zero_ult, Bool.bne_true]
    rfl

end

end LC3Tools.Simp
