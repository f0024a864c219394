import LC3Tools.Lcc.Folding

/-! The operators and operands that `simplify` gets right, and no others. -/
namespace LC3Tools.Simp

section
variable {ρ : Nat → Word} {s ty : Ty} {l r t u : Tree} {a b w : Word} {v : Long} {needconst : Bool}

theorem mask_iff (a : Word) : a &&& 255 = a ↔ a.toNat < 256 := by
  have low : (255 : Word).toNat = 2 ^ 8 - 1 := rfl
  rw [← BitVec.toNat_inj, BitVec.toNat_and, low, Nat.and_two_pow_sub_one_eq_mod]
  omega

theorem extend_word (v : Long) :
    (extend v).setWidth 16 = ((v.setWidth 16).setWidth 8).signExtend 16 := by
  have bit : (1 : Long) <<< (8 * size - 1) = BitVec.twoPow 64 7 := by decide
  have nonzero : BitVec.twoPow 64 7 ≠ 0 := by decide
  have high : ∀ i < 16, (~~~(0 : Long) <<< (8 * size - 1)).getLsbD i = decide (7 ≤ i) := by decide
  have low : ∀ i < 16, (255 : Long).getLsbD i = decide (i < 8) := by decide
  apply BitVec.eq_of_getLsbD_eq
  intro i less
  rw [extend, bit, BitVec.and_twoPow, BitVec.getLsbD_signExtend, BitVec.msb_eq_getLsbD_last]
  cases sign : v.getLsbD 7 with
  | true =>
    simp only [if_true, ne_eq, nonzero, not_false_eq_true, BitVec.getLsbD_setWidth,
      BitVec.getLsbD_or, high i less]
    grind
  | false =>
    simp only [if_false, ne_eq, Bool.false_eq_true, ones_size, BitVec.getLsbD_setWidth]
    grind

theorem narrow_iff (a : Word) : (a.setWidth 8).signExtend 16 = a ↔ -128 ≤ a.toInt ∧
    a.toInt < 128 := by
  rw [← BitVec.toInt_inj, BitVec.toInt_signExtend_of_le (by decide), BitVec.toInt_setWidth,
    BitVec.toInt_eq_toNat_bmod,
    Int.bmod_def, Int.bmod_def]
  have small := a.isLt
  omega

/-- The constants that a unary operator folds to their value. -/
def KeepsUnary (needconst : Bool) : Unary → Tree → Prop
  | .bcom .I, l | .cvi .I, l => ∀ v, l.const .I = some v → -128 ≤ v.toInt ∧ v.toInt < 128
  | .bcom .U, l => ∀ v, l.const .U = some v → 0xff00 ≤ v.toNat
  | .neg, _ => True
  | .cvi .U, l =>
    ∀ v, l.const .I = some v → 0 ≤ v.toInt ∧ v.toInt < 256 ∨ v.toInt < 0 ∧ needconst = false
  | .cvu .I, l => ∀ v, l.const .U = some v → v.toNat < 128 ∨ maxI < v.toNat
  | .cvu .U, l => ∀ v, l.const .U = some v → v.toNat < 256

def Unary.operand : Unary → Ty
  | .bcom ty => ty
  | .neg | .cvi _ => .I
  | .cvu _ => .U

theorem unary_nonconst {op : Unary} (other : ¬ l.isConst) (hl : eval ρ l = some a) :
    eval ρ (simplifyUnary needconst op l) = some (applyUnary op a) := by
  have none (s : Ty) : l.const s = none := by
    cases l with
    | cnst => exact absurd rfl other
    | _ => rfl
  have rest : eval ρ (.unary op l) = some (applyUnary op a) := by
    rw [eval, hl]
    rfl
  cases op with
  | cvi ty =>
    cases ty <;> simp only [simplifyUnary, none, Option.bind_eq_bind, Option.bind_none,
      Option.getD_none, rest]
  | cvu ty =>
    cases ty <;> simp only [simplifyUnary, none, Option.bind_eq_bind, Option.bind_none,
      Option.getD_none, rest]
  | neg =>
    refine eval_getD (eval_orElse (fun u found => ?_) fun u found => ?_) fun _ => rest
    · rw [none] at found
      cases found
    · split at found <;> cases found
      obtain ⟨c, hc, rfl⟩ := Option.map_eq_some_iff.mp hl
      rw [hc, applyUnary, applyUnary, BitVec.neg_neg]
  | bcom ty =>
    cases ty <;> refine eval_getD (eval_orElse (fun u found => ?_) fun u found => ?_) fun _ => rest
    · rw [none] at found
      cases found
    · split at found <;> cases found
      obtain ⟨c, hc, rfl⟩ := Option.map_eq_some_iff.mp hl
      rw [hc, applyUnary, applyUnary, BitVec.not_not]
    · rw [none] at found
      cases found
    · split at found <;> cases found
      obtain ⟨c, hc, rfl⟩ := Option.map_eq_some_iff.mp hl
      rw [hc, applyUnary, applyUnary, BitVec.not_not]

theorem unary_const_iff {op : Unary}
    (folded : ∀ ρ, eval ρ (simplifyUnary needconst op (.cnst s v)) = some w) :
    PreservesUnary needconst op (.cnst s v) ↔
      (DefinedUnary op (v.setWidth 16) → w = applyUnary op (v.setWidth 16)) := by
  constructor
  · intro preserves defined
    exact Option.some.inj ((folded fun _ => 0).symm.trans (preserves _ _ rfl defined))
  · intro same ρ a value defined
    cases Option.some.inj value
    rw [folded, same defined]

theorem not_word (v : Long) : (~~~v).setWidth 16 = ~~~(v.setWidth 16) :=
  BitVec.setWidth_not (by decide)

theorem and_word (v : Long) : (v &&& 255).setWidth 16 = v.setWidth 16 &&& 255 := by
  rw [BitVec.setWidth_and]
  rfl

theorem low_mask (a : Word) : (a &&& 255).setWidth 8 = a.setWidth 8 := by
  rw [BitVec.setWidth_and, show (255 : Word).setWidth 8 = BitVec.allOnes 8 from rfl,
    BitVec.and_allOnes]

theorem eval_extend (v : Long) :
    eval ρ (cnsttree .I (extend v)) = some (((v.setWidth 16).setWidth 8).signExtend 16) := by
  rw [eval_cnsttree_I, extend_word]

theorem eval_masked (v : Long) :
    eval ρ (cnsttree .U (v &&& ones (8 * size))) = some (v.setWidth 16 &&& 255) := by
  rw [eval_cnsttree_U, ones_size, and_word, BitVec.and_assoc, BitVec.and_self]

theorem toInt_complement (a : Word) : (~~~a).toInt = -a.toInt - 1 := by
  rw [BitVec.toInt_eq_toNat_cond, BitVec.toInt_eq_toNat_cond, BitVec.toNat_not]
  have small := a.isLt
  omega

theorem const_single {P : Long → Prop} :
    (∀ x, (Tree.cnst s v).const s = some x → P x) ↔ P v := by
  simp [Tree.const]

theorem preserves_bcom
    (ol : Operand (Unary.bcom ty).operand (.cnst (Unary.bcom ty).operand v)) :
    PreservesUnary needconst (.bcom ty) (.cnst (Unary.bcom ty).operand v) ↔
      KeepsUnary needconst (.bcom ty) (.cnst (Unary.bcom ty).operand v) := by
  cases ty with
  | I =>
    have folded (ρ : Nat → Word) : eval ρ (simplifyUnary needconst (.bcom .I) (.cnst .I v)) =
        some (((~~~(v.setWidth 16)).setWidth 8).signExtend 16) := by
      rw [← not_word, ← low_mask, ← and_word, ← eval_extend, ← ones_size]
      rfl
    rw [KeepsUnary, Unary.operand, unary_const_iff folded, applyUnary, narrow_iff, const_single,
      toInt_complement,
      ← toInt_word ol]
    have known : DefinedUnary (.bcom .I) (v.setWidth 16) := trivial
    constructor
    · intro within
      have within := within known
      omega
    · intro within _
      omega
  | U =>
    have folded (ρ : Nat → Word) : eval ρ (simplifyUnary needconst (.bcom .U) (.cnst .U v)) =
        some (~~~(v.setWidth 16) &&& 255) := by
      rw [← not_word, ← eval_masked]
      rfl
    rw [KeepsUnary, Unary.operand, unary_const_iff folded, applyUnary, mask_iff, const_single,
      BitVec.toNat_not, ← toNat_word ol]
    have known : DefinedUnary (.bcom .U) (v.setWidth 16) := trivial
    have small := (v.setWidth 16).isLt
    constructor
    · intro within
      have within := within known
      omega
    · intro large _
      omega

theorem preserves_neg :
    PreservesUnary needconst .neg (.cnst Unary.neg.operand v) ↔
      KeepsUnary needconst .neg (.cnst Unary.neg.operand v) := by
  refine iff_of_true ?_ trivial
  intro ρ a value defined
  cases Option.some.inj value
  refine eval_getD (eval_orElse (fun u found => ?_) fun u found => by cases found) fun _ => rfl
  obtain ⟨x, same, found⟩ := Option.bind_eq_some_iff.mp found
  cases Option.some.inj same
  split at found
  · cases found
    rw [eval_cnsttree_I, BitVec.setWidth_neg_of_le (by decide)]
    rfl
  · cases found

theorem preserves_cvi
    (ol : Operand (Unary.cvi ty).operand (.cnst (Unary.cvi ty).operand v)) :
    PreservesUnary needconst (.cvi ty) (.cnst (Unary.cvi ty).operand v) ↔
      KeepsUnary needconst (.cvi ty) (.cnst (Unary.cvi ty).operand v) := by
  have low : minI ≤ v.toInt := ol.2.1
  have high : v.toInt ≤ maxI := ol.2.2
  rw [minI_eq] at low
  rw [maxI_eq] at high
  cases ty with
  | I =>
    have within : needconst ∨ ¬ (v.toInt < minI ∨ maxI < v.toInt) := by
      right
      rw [minI_eq, maxI_eq]
      omega
    have folded (ρ : Nat → Word) : eval ρ (simplifyUnary needconst (.cvi .I) (.cnst .I v)) =
        some (((v.setWidth 16).setWidth 8).signExtend 16) := by
      rw [← eval_extend]
      exact congrArg (fun rule => eval ρ (Option.getD rule _)) (if_pos within)
    rw [KeepsUnary, Unary.operand, unary_const_iff folded, applyUnary, narrow_iff, const_single,
      ← toInt_word ol]
    exact forall_prop_of_true trivial
  | U =>
    have wide : maxU < v.toNat ↔ v.toInt < 0 := by
      rw [maxU_eq, BitVec.toInt_eq_toNat_cond]
      rw [BitVec.toInt_eq_toNat_cond] at low high
      have small := v.isLt
      split at low <;> omega
    have value : (v.setWidth 16).toInt = v.toInt := toInt_word ol
    rw [BitVec.toInt_eq_toNat_cond] at value
    have small := (v.setWidth 16).isLt
    rw [KeepsUnary, Unary.operand, const_single]
    by_cases folds : needconst ∨ ¬ maxU < v.toNat
    · have folded (ρ : Nat → Word) : eval ρ (simplifyUnary needconst (.cvi .U) (.cnst .I v)) =
          some (v.setWidth 16 &&& 255) := by
        rw [← eval_masked]
        exact congrArg (fun rule => eval ρ (Option.getD rule _)) (if_pos folds)
      have known : DefinedUnary (.cvi .U) (v.setWidth 16) := trivial
      rw [unary_const_iff folded, applyUnary, mask_iff]
      rw [wide] at folds
      constructor
      · intro within
        have within := within known
        split at value <;> omega
      · rintro (within | ⟨negative, off⟩) _
        · split at value <;> omega
        · rw [off] at folds
          exact absurd negative (folds.resolve_left Bool.false_ne_true)
    · have kept (ρ : Nat → Word) :
          eval ρ (simplifyUnary needconst (.cvi .U) (.cnst .I v)) = some (v.setWidth 16) := by
        exact congrArg (fun rule => eval ρ (Option.getD rule _)) (if_neg folds)
      rw [unary_const_iff kept]
      refine iff_of_true (fun _ => rfl) (.inr ⟨?_, ?_⟩)
      · rw [← wide]
        tauto
      · exact Bool.eq_false_iff.mpr fun on => folds (.inl on)

theorem preserves_cvu
    (ol : Operand (Unary.cvu ty).operand (.cnst (Unary.cvu ty).operand v)) :
    PreservesUnary needconst (.cvu ty) (.cnst (Unary.cvu ty).operand v) ↔
      KeepsUnary needconst (.cvu ty) (.cnst (Unary.cvu ty).operand v) := by
  have high : v.toNat ≤ maxU := ol.2
  rw [maxU_eq] at high
  have value : (v.setWidth 16).toNat = v.toNat := toNat_word ol
  cases ty with
  | I =>
    rw [KeepsUnary, Unary.operand, const_single]
    by_cases beyond : maxI < v.toNat
    · refine iff_of_true (fun ρ a word defined => ?_) (.inr beyond)
      cases Option.some.inj word
      rw [DefinedUnary, value] at defined
      omega
    · have folded (ρ : Nat → Word) : eval ρ (simplifyUnary needconst (.cvu .I) (.cnst .U v)) =
          some (((v.setWidth 16).setWidth 8).signExtend 16) := by
        rw [← eval_extend]
        exact congrArg (fun rule => eval ρ (Option.getD rule _)) (if_pos (.inr beyond))
      have known : DefinedUnary (.cvu .I) (v.setWidth 16) := by
        rw [DefinedUnary, value]
        omega
      rw [unary_const_iff folded, applyUnary, narrow_iff, forall_prop_of_true known,
        BitVec.toInt_eq_toNat_cond, value]
      rw [maxI_eq] at beyond ⊢
      rw [if_pos (by omega)]
      omega
  | U =>
    have within : needconst ∨ ¬ maxU < v.toNat := by
      right
      rw [maxU_eq]
      omega
    have folded (ρ : Nat → Word) : eval ρ (simplifyUnary needconst (.cvu .U) (.cnst .U v)) =
        some (v.setWidth 16 &&& 255) := by
      rw [← eval_masked]
      exact congrArg (fun rule => eval ρ (Option.getD rule _)) (if_pos within)
    rw [KeepsUnary, Unary.operand, unary_const_iff folded, applyUnary, mask_iff,
      const_single, value]
    exact forall_prop_of_true trivial

theorem preservesUnary_iff {op : Unary} (ol : Operand op.operand l) :
    PreservesUnary needconst op l ↔ KeepsUnary needconst op l := by
  by_cases const : l.isConst
  · obtain ⟨s, v, rfl⟩ := isConst_iff.mp const
    obtain rfl := operand_const ol
    cases op with
    | bcom ty => exact preserves_bcom ol
    | neg => exact preserves_neg
    | cvi ty => exact preserves_cvi ol
    | cvu ty => exact preserves_cvu ol
  · refine iff_of_true (fun ρ a value _ => unary_nonconst const value) ?_
    have none {s : Ty} {v : Long} (found : l.const s = some v) : False :=
      const (isConst_of_const found)
    cases op with
    | neg => trivial
    | bcom ty => cases ty <;> exact fun v found => (none found).elim
    | cvi ty => cases ty <;> exact fun v found => (none found).elim
    | cvu ty => cases ty <;> exact fun v found => (none found).elim

/-! Two operands. -/

def Binary.count : Binary → Ty → Ty
  | .lsh, _ | .rsh, _ => .I
  | _, ty => ty

/-- Two unsigned constants that are not folded: a power of two from 256 on that multiplies, a
quotient by one, and a shift by no bits or by eight and more. -/
def Unfolded : Binary → Long → Long → Prop
  | .mul, x, _ => 8 ≤ ispow2 x.toNat
  | .div, _, y => y = 1
  | .lsh, _, y | .rsh, _, y => y = 0 ∨ ¬ (0 ≤ y.toInt ∧ y.toInt < 8)
  | _, _, _ => False

/-- No value has more than eight bits. -/
def Narrow (t : Tree) : Prop := ∀ ρ a, eval ρ t = some a → a.toNat < 256

/-- A field of eight bits is tested for zero. -/
def FieldTest : Binary → Ty → Tree → Tree → Prop
  | .eq, ty, l, r
    | .ne, ty, l, r => r.const ty = some 0 ∧ l.WholeField ∨ l.const ty = some 0 ∧ r.WholeField
  | .ge, .U, l, r | .lt, .U, l, r => l.const .U = some 0 ∧ r.WholeField
  | .gt, .U, l, r | .le, .U, l, r => r.const .U = some 0 ∧ l.WholeField
  | _, _, _, _ => False

/-- What `simplify` gets right: unsigned constants with a result of eight bits, a mask of
eight bits on such operands only, and a remainder by a power of two from 256 on of smaller
operands only. -/
structure Keeps (op : Binary) (ty : Ty) (l r : Tree) : Prop where
  consts : ty = .U → ∀ x y, l.const .U = some x → r.const (op.count .U) = some y →
    Unfolded op x y ∨ ∀ w, apply op .U (x.setWidth 16) (y.setWidth 16) = some w → w.toNat < 256
  maskLeft : op = .band → l.const ty = some 255 → ¬ r.isConst → Narrow r
  maskRight : op = .band → r.const ty = some 255 → ¬ l.isConst → Narrow l
  modulus : op = .mod → ty = .U → ∀ y, r.const .U = some y → 8 ≤ ispow2 y.toNat → ¬ l.isConst →
    ∀ ρ a, eval ρ l = some a → a.toNat < y.toNat
  fields : ¬ FieldTest op ty l r

theorem defined_isSome {op : Binary} (defined : Defined op ty a b) : (apply op ty a b).isSome := by
  cases op <;> cases ty <;> first | exact defined | rfl | skip
  rw [apply, if_pos defined.2]
  rfl

theorem preserves_free {op : Binary} (free : Free ty l r) (ol : Operand ty l)
    (or : Operand (op.count ty) r)
    (keeps : Keeps op ty l r) : Preserves needconst op ty l r := by
  intro ρ a b hl hr defined
  have some := defined_isSome defined
  have rest {op : Binary} : eval ρ (.binary op ty l r) = apply op ty a b := eval_binary op ty hl hr
  cases op with
  | add => exact simplifyAdd_sound free hl hr
  | sub => exact simplifySub_sound free hl hr
  | mul => exact simplifyMul_sound free ol or hl hr
  | div => exact simplifyDiv_sound free ol or hl hr some
  | mod =>
    refine simplifyMod_sound free ol or hl hr some fun y found wide other => ?_
    cases ty with
    | I =>
      rw [const_eq_some] at found
      subst found
      exact absurd (operand_const or) (by decide)
    | U => exact keeps.modulus rfl rfl y found wide other ρ a hl
  | band =>
    exact simplifyBand_sound free ol.1 or.1 hl hr
      (fun mask other => (mask_iff b).mpr (keeps.maskLeft rfl mask other ρ b hr))
      fun mask other => (mask_iff a).mpr (keeps.maskRight rfl mask other ρ a hl)
  | bor => exact simplifyBor_sound free hl hr
  | bxor => exact simplifyBxor_sound free hl hr
  | lsh =>
    have count : b.toNat < 16 := by
      by_contra wide
      rw [apply, if_neg wide] at some
      cases some
    rw [apply, if_pos count]
    exact simplifyLsh_sound free or hl hr count
  | rsh =>
    have count : b.toNat < 16 := by
      by_contra wide
      cases ty <;> rw [apply, if_neg wide] at some <;> cases some
    exact simplifyRsh_sound free ol or hl hr count fun signed => by
      subst signed
      exact defined.1
  | eq =>
    have test : eval ρ (simplifyEq needconst false ty l r) = _ := simplifyEq_sound ol or
      (fun zero whole => keeps.fields (.inl ⟨zero, whole⟩))
      (fun zero whole => keeps.fields (.inr ⟨zero, whole⟩)) hl hr
    rwa [Bool.bne_false] at test
  | ne =>
    have test : eval ρ (simplifyEq needconst true ty l r) = _ := simplifyEq_sound ol or
      (fun zero whole => keeps.fields (.inl ⟨zero, whole⟩))
      (fun zero whole => keeps.fields (.inr ⟨zero, whole⟩)) hl hr
    rwa [Bool.bne_true] at test
  | ge =>
    cases ty with
    | I =>
      exact eval_getD (eval_cfoldcnst (fun a b => b.sle a)
        (fun x y ox oy => sle_word oy ox) ol or hl hr) fun _ => rest
    | U => exact ge_sound ol or (fun zero whole => keeps.fields ⟨zero, whole⟩) hl hr
  | gt =>
    cases ty with
    | I =>
      exact eval_getD (eval_cfoldcnst (fun a b => b.slt a)
        (fun x y ox oy => slt_word oy ox) ol or hl hr) fun _ => rest
    | U => exact gt_sound ol or (fun zero whole => keeps.fields ⟨zero, whole⟩) hl hr
  | le =>
    cases ty with
    | I =>
      exact eval_getD
        (eval_cfoldcnst (fun a b => a.sle b) (fun x y => sle_word) ol or hl hr) fun _ => rest
    | U => exact le_sound ol or (fun zero whole => keeps.fields ⟨zero, whole⟩) hl hr
  | lt =>
    cases ty with
    | I =>
      exact eval_getD
        (eval_cfoldcnst (fun a b => a.slt b) (fun x y => slt_word) ol or hl hr) fun _ => rest
    | U => exact lt_sound ol or (fun zero whole => keeps.fields ⟨zero, whole⟩) hl hr

theorem truth_narrow (c : Bool) : truth c &&& 255 = truth c := by cases c <;> rfl

section
variable {x y : Long} {op : Binary}

/-- What two unsigned constants become. -/
def Folded (needconst : Bool) (op : Binary) (x y : Long) : Prop :=
  ∀ ρ w, apply op .U (x.setWidth 16) (y.setWidth 16) = some w →
    (Unfolded op x y ∧ eval ρ (simplify needconst op .U (.cnst .U x) (.cnst (op.count .U) y)) =
      some w) ∨
    (¬ Unfolded op x y ∧ eval ρ (simplify needconst op .U (.cnst .U x) (.cnst (op.count .U) y)) =
      some (w &&& 255))

theorem udiv_word (ox : Operand .U (.cnst .U x)) (oy : Operand .U (.cnst .U y)) :
    (x / y).setWidth 16 = x.setWidth 16 / y.setWidth 16 := by
  have small : x.toNat / y.toNat < 2 ^ 16 := by
    have high : x.toNat ≤ maxU := ox.2
    rw [maxU_eq] at high
    exact Nat.lt_of_le_of_lt (Nat.div_le_self _ _) (by omega)
  apply BitVec.eq_of_toNat_eq
  rw [BitVec.toNat_udiv, BitVec.toNat_setWidth, BitVec.toNat_udiv, toNat_word ox, toNat_word oy,
    Nat.mod_eq_of_lt small]

theorem umod_word (ox : Operand .U (.cnst .U x)) (oy : Operand .U (.cnst .U y)) :
    (x % y).setWidth 16 = x.setWidth 16 % y.setWidth 16 := by
  have small : x.toNat % y.toNat < 2 ^ 16 := by
    have high : x.toNat ≤ maxU := ox.2
    rw [maxU_eq] at high
    exact Nat.lt_of_le_of_lt (Nat.mod_le _ _) (by omega)
  apply BitVec.eq_of_toNat_eq
  rw [BitVec.toNat_umod, BitVec.toNat_setWidth, BitVec.toNat_umod, toNat_word ox, toNat_word oy,
    Nat.mod_eq_of_lt small]

theorem ushiftRight_word (ox : Operand .U (.cnst .U x)) (n : Nat) :
    (x >>> n).setWidth 16 = x.setWidth 16 >>> n := by
  have small : x.toNat >>> n < 2 ^ 16 := by
    have high : x.toNat ≤ maxU := ox.2
    rw [maxU_eq] at high
    exact Nat.lt_of_le_of_lt (Nat.shiftRight_le _ _) (by omega)
  apply BitVec.eq_of_toNat_eq
  rw [BitVec.toNat_ushiftRight, BitVec.toNat_setWidth, BitVec.toNat_ushiftRight, toNat_word ox,
    Nat.mod_eq_of_lt small]

theorem folded_low {f : Long → Long → Long} {g : Word → Word → Word} (always : ¬ Unfolded op x y)
    (meaning : apply op .U (x.setWidth 16) (y.setWidth 16) = some
      (g (x.setWidth 16) (y.setWidth 16)))
    (low : (f x y).setWidth 16 = g (x.setWidth 16) (y.setWidth 16))
    (folds : simplify needconst op .U (.cnst .U x) (.cnst (op.count .U) y) = cnsttree .U (f x y)) :
    Folded needconst op x y := by
  intro ρ w value
  rw [meaning] at value
  exact .inr ⟨always, by rw [folds, eval_cnsttree_U, low, Option.some.inj value]⟩

theorem shift_consts {f : Long → Nat → Long} {g : Word → Nat → Word} (oy : Operand .I (.cnst .I y))
    (still : ∀ a, g a 0 = a)
      (meaning : ∀ a b, apply op .U a b = if b.toNat < 16 then some (g a b.toNat) else none)
    (low : ∀ n, (f x n).setWidth 16 = g (x.setWidth 16) n)
    (value : apply op .U (x.setWidth 16) (y.setWidth 16) = some w) :
    eval ρ ((identity (.cnst .I y) (.cnst .U x) .I 0 <|> sfoldcnst (.cnst .U x) (.cnst .I y) f).getD
      (.binary op .U (.cnst .U x) (.cnst .I y))) =
        some (if y = 0 ∨ ¬ (0 ≤ y.toInt ∧ y.toInt < 8) then w else w &&& 255) := by
  have count : (y.setWidth 16).toNat < 16 := by
    by_contra wide
    rw [meaning, if_neg wide] at value
    cases value
  have same : g (x.setWidth 16) (y.setWidth 16).toNat = w := by
    rw [meaning, if_pos count] at value
    exact Option.some.inj value
  by_cases zero : y = 0
  · subst zero
    rw [if_pos (.inl rfl), ← same]
    exact congrArg some (still _).symm
  · have kept : identity (.cnst .I y) (.cnst .U x) .I 0 = none :=
      if_neg fun same => zero (Option.some.inj same)
    rw [kept]
    by_cases near : 0 ≤ y.toInt ∧ y.toInt < 8
    · have folds : sfoldcnst (.cnst .U x) (.cnst .I y) f = some (cnsttree .U (f x y.toNat)) :=
        if_pos near
      rw [folds, if_neg (by tauto), ← same, toNat_count oy near.1, ← low, ← eval_cnsttree_U]
      rfl
    · have left : sfoldcnst (.cnst .U x) (.cnst .I y) f = none := if_neg near
      rw [left, if_pos (.inr near), ← value]
      rfl

theorem folded_split {P : Prop} [Decidable P] {t : Tree}
    (found : eval ρ t = some (if P then w else w &&& 255)) :
    (P ∧ eval ρ t = some w) ∨ (¬ P ∧ eval ρ t = some (w &&& 255)) := by
  by_cases holds : P
  · rw [if_pos holds] at found
    exact .inl ⟨holds, found⟩
  · rw [if_neg holds] at found
    exact .inr ⟨holds, found⟩

theorem folded_lsh (oy : Operand .I (.cnst .I y)) : Folded needconst .lsh x y := by
  intro ρ w value
  have found := shift_consts (ρ := ρ) (x := x) (f := (· <<< ·))
    (g := (· <<< ·)) oy BitVec.shiftLeft_zero (fun _ _ => rfl)
    (fun n => BitVec.setWidth_shiftLeft_of_le (by decide)) value
  have cases := folded_split found
  exact cases

theorem folded_rsh (ox : Operand .U (.cnst .U x)) (oy : Operand .I (.cnst .I y)) :
    Folded needconst .rsh x y := by
  intro ρ w value
  have found := shift_consts (ρ := ρ) (f := (· >>> ·)) (g := (· >>> ·)) oy BitVec.ushiftRight_zero
    (fun _ _ => rfl)
    (ushiftRight_word ox) value
  have cases := folded_split found
  exact cases

theorem count_far {n : Nat} (small : n < 16) (some : n ≠ 0) :
    (BitVec.ofNat 64 n = 0 ∨ ¬ (0 ≤ (BitVec.ofNat 64 n).toInt ∧ (BitVec.ofNat 64 n).toInt < 8)) ↔
      8 ≤ n := by
  have every : ∀ k : Fin 16, k.val ≠ 0 → ((BitVec.ofNat 64 k.val = 0 ∨
      ¬ (0 ≤ (BitVec.ofNat 64 k.val).toInt ∧ (BitVec.ofNat 64 k.val).toInt < 8)) ↔
        8 ≤ k.val) := by decide +kernel
  exact every ⟨n, small⟩ some

theorem folded_mul (ox : Operand .U (.cnst .U x)) : Folded needconst .mul x y := by
  have order : commute (.cnst .U x) (.cnst .U y) = (.cnst .U x, .cnst .U y) := rfl
  have known : ((Tree.cnst .U x).const .U).elim 0 (·.toNat) = x.toNat := rfl
  by_cases found : ispow2 x.toNat = 0
  · have folds : simplifyMul needconst .U (.cnst .U x) (.cnst .U y) = cnsttree .U (x * y) := by
      simp only [simplifyMul, order, known, found, ne_eq, not_true_eq_false, if_false]
      rfl
    exact folded_low (f := (· * ·)) (g := (· * ·)) (by simp [Unfolded, found]) rfl
      (BitVec.setWidth_mul x y (by decide)) folds
  · obtain ⟨small, word⟩ := pow2_count ox found (fun h => by cases h)
    obtain ⟨count, value⟩ := count_operand small
    have shifts : simplifyMul needconst .U (.cnst .U x) (.cnst .U y) =
        simplifyLsh needconst .U (.cnst .U y) (.cnst .I (.ofNat 64 (ispow2 x.toNat))) := by
      simp only [simplifyMul, order, known, ne_eq, found, not_false_eq_true, if_true]
      rfl
    intro ρ w product
    have shifted : apply .lsh .U (y.setWidth 16) ((BitVec.ofNat 64 (ispow2 x.toNat)).setWidth 16) =
      some w := by
      have word' : (BitVec.ofNat 64 (ispow2 x.toNat)).setWidth 16 = BitVec.ofNat 16
        (ispow2 x.toNat) :=
        Option.some.inj (value ρ)
      have number : (BitVec.ofNat 16 (ispow2 x.toNat)).toNat = ispow2 x.toNat :=
        Nat.mod_eq_of_lt (by omega)
      rw [word', apply, number, if_pos small, BitVec.shiftLeft_eq_mul_twoPow, ← word,
        BitVec.mul_comm]
      exact product
    have found' := shift_consts (ρ := ρ) (x := y) (f := (· <<< ·))
      (g := (· <<< ·)) count BitVec.shiftLeft_zero
      (fun _ _ => rfl) (fun n => BitVec.setWidth_shiftLeft_of_le (by decide)) shifted
    have split := folded_split found'
    rw [count_far small found] at split
    have whole : simplify needconst .mul .U (.cnst .U x) (.cnst .U y) = _ := shifts
    simp only [Unfolded, Binary.count, whole]
    exact split

theorem folded_div (ox : Operand .U (.cnst .U x)) (oy : Operand .U (.cnst .U y)) :
    Folded needconst .div x y := by
  intro ρ w value
  have fine : y.setWidth 16 ≠ 0 := by
    intro none
    rw [apply, if_pos none] at value
    cases value
  have quotient : x.setWidth 16 / y.setWidth 16 = w := by
    rw [apply, if_neg fine] at value
    exact Option.some.inj value
  have notZero : ¬ (Tree.cnst .U y).const .U = some 0 := by
    intro same
    cases Option.some.inj same
    exact fine rfl
  by_cases one : y = 1
  · subst one
    refine .inl ⟨rfl, ?_⟩
    have same : simplify needconst .div .U (.cnst .U x) (.cnst .U 1) = .cnst .U x := rfl
    rw [show Binary.div.count .U = .U from rfl, same, ← quotient]
    exact congrArg some (BitVec.udiv_one).symm
  · refine .inr ⟨one, ?_⟩
    have kept : identity (.cnst .U y) (.cnst .U x) .U 1 = none :=
      if_neg fun same => one (Option.some.inj same)
    have known : ((Tree.cnst .U y).const .U).elim 0 (·.toNat) = y.toNat := rfl
    by_cases found : ispow2 y.toNat = 0
    · have folds : simplifyDiv needconst .U (.cnst .U x) (.cnst .U y) = cnsttree .U (x / y) := by
        simp only [simplifyDiv, kept, Option.getD_none, if_neg notZero, known, found, ne_eq,
          not_true_eq_false, if_false]
        rfl
      have whole : simplify needconst .div .U (.cnst .U x) (.cnst .U y) = _ := folds
      rw [show Binary.div.count .U = .U from rfl, whole, eval_cnsttree_U, udiv_word ox oy, quotient]
    · obtain ⟨small, word⟩ := pow2_count oy found (fun h => by cases h)
      obtain ⟨count, counted⟩ := count_operand small
      have shifts : simplifyDiv needconst .U (.cnst .U x) (.cnst .U y) =
          simplifyRsh .U (.cnst .U x) (.cnst .I (.ofNat 64 (ispow2 y.toNat))) := by
        simp only [simplifyDiv, kept, Option.getD_none, if_neg notZero, known, ne_eq, found,
          not_false_eq_true, if_true]
        rfl
      have word' : (BitVec.ofNat 64 (ispow2 y.toNat)).setWidth 16 = BitVec.ofNat 16
        (ispow2 y.toNat) :=
        Option.some.inj (counted ρ)
      have number : (BitVec.ofNat 16 (ispow2 y.toNat)).toNat = ispow2 y.toNat :=
        Nat.mod_eq_of_lt (by omega)
      have small' : 2 ^ ispow2 y.toNat < 2 ^ 16 := Nat.pow_lt_pow_right (by decide) small
      have shift : (x.setWidth 16 >>> ispow2 y.toNat).toNat = w.toNat := by
        rw [← quotient, BitVec.toNat_udiv, word, BitVec.toNat_twoPow, Nat.mod_eq_of_lt small',
          BitVec.toNat_ushiftRight,
          Nat.shiftRight_eq_div_pow]
      have shifted : apply .rsh .U (x.setWidth 16)
        ((BitVec.ofNat 64 (ispow2 y.toNat)).setWidth 16) = some w := by
        rw [word', apply, number, if_pos small, BitVec.eq_of_toNat_eq shift]
      have found' := shift_consts (ρ := ρ) (f := (· >>> ·))
        (g := (· >>> ·)) count BitVec.ushiftRight_zero
        (fun _ _ => rfl) (ushiftRight_word ox) shifted
      have whole : simplify needconst .div .U (.cnst .U x) (.cnst .U y) = _ := shifts
      rw [show Binary.div.count .U = .U from rfl, whole]
      rcases folded_split found' with ⟨far, value⟩ | ⟨-, value⟩
      · -- a quotient by 256 or more has eight bits
        rw [count_far small found] at far
        have few : w.toNat < 256 := by
          have high := (x.setWidth 16).isLt
          rw [← shift, BitVec.toNat_ushiftRight, Nat.shiftRight_eq_div_pow]
          have wide : 2 ^ 8 ≤ 2 ^ ispow2 y.toNat := Nat.pow_le_pow_right (by decide) far
          exact Nat.div_lt_of_lt_mul (by omega)
        rw [(mask_iff w).mpr few]
        exact value
      · exact value

theorem folded_mod (ox : Operand .U (.cnst .U x)) (oy : Operand .U (.cnst .U y)) :
    Folded needconst .mod x y := by
  intro ρ w value
  have fine : y.setWidth 16 ≠ 0 := by
    intro none
    rw [apply, if_pos none] at value
    cases value
  have rest : x.setWidth 16 % y.setWidth 16 = w := by
    rw [apply, if_neg fine] at value
    exact Option.some.inj value
  have notZero : ¬ (Tree.cnst .U y).const .U = some 0 := by
    intro same
    cases Option.some.inj same
    exact fine rfl
  have known : ((Tree.cnst .U y).const .U).elim 0 (·.toNat) = y.toNat := rfl
  refine .inr ⟨id, ?_⟩
  by_cases found : ispow2 y.toNat = 0
  · have folds : simplifyMod needconst .U (.cnst .U x) (.cnst .U y) = cnsttree .U (x % y) := by
      simp only [simplifyMod, if_neg notZero, known, found, ne_eq, not_true_eq_false, if_false]
      rfl
    have whole : simplify needconst .mod .U (.cnst .U x) (.cnst .U y) = _ := folds
    rw [show Binary.mod.count .U = .U from rfl, whole, eval_cnsttree_U, umod_word ox oy, rest]
  · obtain ⟨small, word⟩ := pow2_count oy found (fun h => by cases h)
    have masks : simplifyMod needconst .U (.cnst .U x) (.cnst .U y) =
        cnsttree .U (x &&& (.ofNat 64 (y.toNat - 1) &&& ones (8 * size))) := by
      simp only [simplifyMod, known, ne_eq, found, not_false_eq_true, if_true]
      rfl
    have whole : simplify needconst .mod .U (.cnst .U x) (.cnst .U y) = _ := masks
    have power := ispow2_spec found
    have high : y.toNat < 2 ^ 16 := Nat.lt_succ_of_le oy.2
    have low : (BitVec.ofNat 64 (y.toNat - 1)).setWidth 16 = BitVec.ofNat 16 (y.toNat - 1) := by
      apply BitVec.eq_of_toNat_eq
      rw [BitVec.toNat_setWidth, BitVec.toNat_ofNat, BitVec.toNat_ofNat]
      omega
    have masked : x.setWidth 16 &&& BitVec.ofNat 16 (y.toNat - 1) = w := by
      apply BitVec.eq_of_toNat_eq
      rw [← rest, BitVec.toNat_and, BitVec.toNat_umod, BitVec.toNat_ofNat,
        Nat.mod_eq_of_lt (by omega), toNat_word oy,
        power, Nat.and_two_pow_sub_one_eq_mod]
    rw [show Binary.mod.count .U = .U from rfl, whole, eval_cnsttree_U, ones_size,
      BitVec.setWidth_and, and_word, low,
      ← BitVec.and_assoc, masked, BitVec.and_assoc, BitVec.and_self]

theorem folded_truth {c : Bool} (always : ¬ Unfolded op x y)
    (meaning : apply op .U (x.setWidth 16) (y.setWidth 16) = some (truth c))
    (value : ∀ ρ, eval ρ (simplify needconst op .U (.cnst .U x) (.cnst (op.count .U) y)) = some
      (truth c)) :
    Folded needconst op x y := by
  intro ρ w same
  rw [meaning] at same
  rw [← Option.some.inj same, truth_narrow]
  exact .inr ⟨always, value ρ⟩

theorem folded (ox : Operand .U (.cnst .U x)) (oy : Operand (op.count .U) (.cnst (op.count .U) y)) :
    Folded needconst op x y := by
  cases op with
  | add =>
    exact folded_low (f := (· + ·)) (g := (· + ·)) id rfl (BitVec.setWidth_add x y (by decide)) rfl
  | sub => exact folded_low (f := (· - ·)) (g := (· - ·)) id rfl (setWidth_sub x y) rfl
  | mul => exact folded_mul ox
  | div => exact folded_div ox oy
  | mod => exact folded_mod ox oy
  | band => exact folded_low (f := (· &&& ·)) (g := (· &&& ·)) id rfl BitVec.setWidth_and rfl
  | bor => exact folded_low (f := (· ||| ·)) (g := (· ||| ·)) id rfl BitVec.setWidth_or rfl
  | bxor => exact folded_low (f := (· ^^^ ·)) (g := (· ^^^ ·)) id rfl BitVec.setWidth_xor rfl
  | lsh => exact folded_lsh oy
  | rsh => exact folded_rsh ox oy
  | eq =>
    refine folded_truth id rfl fun ρ => ?_
    have test : eval ρ (simplifyEq needconst false .U (.cnst .U x) (.cnst .U y)) = _ :=
      simplifyEq_sound ox oy (fun _ => id) (fun _ => id) rfl rfl
    rwa [Bool.bne_false] at test
  | ne =>
    refine folded_truth id rfl fun ρ => ?_
    have test : eval ρ (simplifyEq needconst true .U (.cnst .U x) (.cnst .U y)) = _ :=
      simplifyEq_sound ox oy (fun _ => id) (fun _ => id) rfl rfl
    rwa [Bool.bne_true] at test
  | ge => exact folded_truth id rfl fun ρ => ge_sound ox oy (fun _ => id) rfl rfl
  | gt => exact folded_truth id rfl fun ρ => gt_sound ox oy (fun _ => id) rfl rfl
  | le => exact folded_truth id rfl fun ρ => le_sound ox oy (fun _ => id) rfl rfl
  | lt => exact folded_truth id rfl fun ρ => lt_sound ox oy (fun _ => id) rfl rfl

end

theorem defined_unsigned {op : Binary} : Defined op .U a b ↔ (apply op .U a b).isSome := by
  cases op <;> rfl

theorem whole_field (ot : Operand s t) (whole : t.WholeField) :
    ∃ n, t = .field s 0 8 n ∧ eval (fun _ => 0x100) t = some 0 := by
  cases t with
  | field ty right size n =>
    obtain ⟨type, -, inside⟩ := ot
    obtain rfl : ty = s := type
    obtain rfl : size = 8 := whole
    have unit : 8 * Simp.size = 8 := rfl
    obtain rfl : right = 0 := by omega
    have low : bits ty 0 8 0x100 = 0 := by cases ty <;> decide
    exact ⟨n, rfl, congrArg some low⟩
  | _ => exact whole.elim

theorem field_test {op : Binary} (ol : Operand ty l) (or : Operand (op.count ty) r)
    (test : FieldTest op ty l r) :
    ¬ Preserves needconst op ty l r := by
  intro preserves
  have here (a b : Word) := preserves (fun _ => 0x100) a b
  have clash {t : Tree} {w w' : Word} (value : eval (fun _ => 0x100) t = some w')
      (same : eval (fun _ => 0x100) t = some w) : w' = w := Option.some.inj (value.symm.trans same)
  cases op with
  | add | sub | mul | div | mod | band | bor | bxor | lsh | rsh => exact test
  | eq =>
    rcases test with ⟨zero, whole⟩ | ⟨zero, whole⟩
    · obtain ⟨n, rfl, value⟩ := whole_field ol whole
      rw [const_eq_some] at zero
      subst zero
      have simplified : eval (fun _ => 0x100)
        (simplify needconst .eq ty (.field ty 0 8 n) (.cnst ty 0)) = some 0 := by
        cases ty <;> cases needconst <;> rfl
      exact absurd (clash (w := 1) simplified (here 0 0 value rfl rfl)) (by decide)
    · obtain ⟨n, rfl, value⟩ := whole_field or whole
      rw [const_eq_some] at zero
      subst zero
      have simplified : eval (fun _ => 0x100)
        (simplify needconst .eq ty (.cnst ty 0) (.field ty 0 8 n)) = some 0 := by
        cases ty <;> cases needconst <;> rfl
      exact absurd (clash (w := 1) simplified (here 0 0 rfl value rfl)) (by decide)
  | ne =>
    rcases test with ⟨zero, whole⟩ | ⟨zero, whole⟩
    · obtain ⟨n, rfl, value⟩ := whole_field ol whole
      rw [const_eq_some] at zero
      subst zero
      have simplified : eval (fun _ => 0x100)
        (simplify needconst .ne ty (.field ty 0 8 n) (.cnst ty 0)) = some 1 := by
        cases ty <;> cases needconst <;> rfl
      exact absurd (clash (w := 0) simplified (here 0 0 value rfl rfl)) (by decide)
    · obtain ⟨n, rfl, value⟩ := whole_field or whole
      rw [const_eq_some] at zero
      subst zero
      have simplified : eval (fun _ => 0x100)
        (simplify needconst .ne ty (.cnst ty 0) (.field ty 0 8 n)) = some 1 := by
        cases ty <;> cases needconst <;> rfl
      exact absurd (clash (w := 0) simplified (here 0 0 rfl value rfl)) (by decide)
  | ge =>
    cases ty with
    | I => exact test
    | U =>
      obtain ⟨zero, whole⟩ := test
      obtain ⟨n, rfl, value⟩ := whole_field or whole
      rw [const_eq_some] at zero
      subst zero
      have simplified : eval (fun _ => 0x100)
        (simplify needconst .ge .U (.cnst .U 0) (.field .U 0 8 n)) = some 0 := rfl
      exact absurd (clash (w := 1) simplified (here 0 0 rfl value rfl)) (by decide)
  | gt =>
    cases ty with
    | I => exact test
    | U =>
      obtain ⟨zero, whole⟩ := test
      obtain ⟨n, rfl, value⟩ := whole_field ol whole
      rw [const_eq_some] at zero
      subst zero
      have simplified : eval (fun _ => 0x100)
        (simplify needconst .gt .U (.field .U 0 8 n) (.cnst .U 0)) = some 1 := rfl
      exact absurd (clash (w := 0) simplified (here 0 0 value rfl rfl)) (by decide)
  | le =>
    cases ty with
    | I => exact test
    | U =>
      obtain ⟨zero, whole⟩ := test
      obtain ⟨n, rfl, value⟩ := whole_field ol whole
      rw [const_eq_some] at zero
      subst zero
      have simplified : eval (fun _ => 0x100)
        (simplify needconst .le .U (.field .U 0 8 n) (.cnst .U 0)) = some 0 := rfl
      exact absurd (clash (w := 1) simplified (here 0 0 value rfl rfl)) (by decide)
  | lt =>
    cases ty with
    | I => exact test
    | U =>
      obtain ⟨zero, whole⟩ := test
      obtain ⟨n, rfl, value⟩ := whole_field or whole
      rw [const_eq_some] at zero
      subst zero
      have simplified : eval (fun _ => 0x100)
        (simplify needconst .lt .U (.cnst .U 0) (.field .U 0 8 n)) = some 1 := rfl
      exact absurd (clash (w := 0) simplified (here 0 0 rfl value rfl)) (by decide)

theorem preserves_iff {op : Binary} (ol : Operand ty l) (or : Operand (op.count ty) r) :
    Preserves needconst op ty l r ↔ Keeps op ty l r := by
  constructor
  · intro preserves
    refine ⟨fun unsigned x y hx hy => ?_, fun band mask other ρ a value => ?_,
      fun band mask other ρ a value => ?_,
      fun mod unsigned y hy wide other ρ a value => ?_, fun test => field_test ol or test preserves⟩
    · subst unsigned
      rw [const_eq_some] at hx hy
      subst hx hy
      by_cases same : Unfolded op x y
      · exact .inl same
      · refine .inr fun w result => ?_
        have defined : Defined op .U (x.setWidth 16) (y.setWidth 16) := by
          rw [defined_unsigned, result]
          rfl
        have whole : Folded needconst _ _ _ := folded ol or
        rcases whole (fun _ => 0) w result with ⟨left, -⟩ | ⟨-, value⟩
        · exact absurd left same
        · rw [preserves _ _ _ rfl rfl defined, result] at value
          exact (mask_iff w).mp (Option.some.inj value).symm
    · subst band
      rw [const_eq_some] at mask
      subst mask
      have masked := preserves ρ 255 a rfl value (by cases ty <;> rfl)
      have dropped : simplify needconst .band ty (.cnst ty 255) r = r := (simplifyBand_mask other).2
      rw [dropped, value, apply, BitVec.and_comm] at masked
      exact (mask_iff a).mp (Option.some.inj masked).symm
    · subst band
      rw [const_eq_some] at mask
      subst mask
      have masked := preserves ρ a 255 value rfl (by cases ty <;> rfl)
      have dropped : simplify needconst .band ty l (.cnst ty 255) = l := (simplifyBand_mask other).1
      rw [dropped, value, apply] at masked
      exact (mask_iff a).mp (Option.some.inj masked).symm
    · subst mod unsigned
      rw [const_eq_some] at hy
      subst hy
      have power := ispow2_spec (u := y.toNat) (by omega)
      have positive : 0 < y.toNat := by
        rw [power]
        exact Nat.two_pow_pos _
      have word : (y.setWidth 16).toNat = y.toNat := toNat_word or
      have fine : y.setWidth 16 ≠ 0 := by
        intro none
        rw [none] at word
        exact absurd word.symm (by simpa using positive.ne')
      have meaning : apply .mod .U a (y.setWidth 16) = some (a % y.setWidth 16) := if_neg fine
      have kept := preserves ρ a _ value rfl (by rw [defined_unsigned, meaning]; rfl)
      have left : simplify needconst .mod .U l (.cnst .U y) = l := by
        have test : ispow2 (((Tree.cnst .U y).const .U).elim 0 (·.toNat)) ≠ 0 := by
          have known : ((Tree.cnst .U y).const .U).elim 0 (·.toNat) = y.toNat := rfl
          rw [known]
          omega
        simp only [simplify, simplifyMod, if_pos test]
        exact mod_wide other ol or wide
      rw [left, value, meaning] at kept
      rw [Option.some.inj kept, BitVec.toNat_umod, word]
      exact Nat.mod_lt _ positive
  · intro keeps
    by_cases free : Free ty l r
    · exact preserves_free free ol or keeps
    · obtain ⟨unsigned, cl, cr⟩ : ty = .U ∧ l.isConst ∧ r.isConst := by
        simpa [Free] using free
      subst unsigned
      obtain ⟨s, x, rfl⟩ := isConst_iff.mp cl
      obtain ⟨s', y, rfl⟩ := isConst_iff.mp cr
      obtain rfl := operand_const ol
      obtain rfl := operand_const or
      intro ρ a b hl hr defined
      cases Option.some.inj hl
      cases Option.some.inj hr
      obtain ⟨w, result⟩ := Option.isSome_iff_exists.mp (defined_unsigned.mp defined)
      rw [result]
      have whole : Folded needconst _ _ _ := folded ol or
      rcases whole ρ w result with ⟨-, value⟩ | ⟨always, value⟩
      · exact value
      · have few := (keeps.consts rfl x y rfl (const_eq_some.mpr rfl)).resolve_left always w result
        rw [value, (mask_iff w).mpr few]

/-- `simplify` preserves the value of an operator on these operands, and on no others. -/
theorem simplify_preserves_iff (needconst : Bool) :
    (∀ op ty l r, Operand ty l → Operand (op.count ty) r →
      (Preserves needconst op ty l r ↔ Keeps op ty l r)) ∧
    ∀ op l, Operand op.operand l → (PreservesUnary needconst op l ↔ KeepsUnary needconst op l) :=
  ⟨fun _ _ _ _ ol or => preserves_iff ol or, fun _ _ ol => preservesUnary_iff ol⟩

theorem one_preserved :
    (Preserves false .add .I (.cnst .I 1) (.leaf .I 0) ↔ Keeps .add .I (.cnst .I 1) (.leaf .I 0)) ∧
    (PreservesUnary false (.bcom .I) (.cnst .I 1) ↔ KeepsUnary false (.bcom .I) (.cnst .I 1)) := by
  have one : Operand .I (.cnst .I 1) := ⟨rfl, by decide, by decide⟩
  have leaf : Operand .I (.leaf .I 0) := ⟨rfl, trivial⟩
  exact ⟨(simplify_preserves_iff false).1 .add _ _ _ one leaf, (simplify_preserves_iff false).2
    (.bcom .I) _ one⟩

theorem sum_lost : ¬ Preserves false .add .U (.cnst .U 0xff) (.cnst .U 1) := by
  intro preserves
  have sum : some (0 : Word) = some 0x100 := preserves (fun _ => 0) 0xff 1 rfl rfl rfl
  exact absurd sum (by decide)

end

end LC3Tools.Simp
