import LC3Tools.Assembler.Text

/-! Numbers as the tools print them, `%d`, and as `strtol` reads them back. -/
namespace LC3Tools

/-- `%d` of a number that is not negative. -/
def decimal (n : Nat) : List Byte := bytes (toString n)

section digits
variable {c : Char}

theorem isDigit_bounds (digit : c.isDigit) : 48 ≤ c.toNat ∧ c.toNat ≤ 57 := by
  simp only [Char.isDigit, Bool.and_eq_true, decide_eq_true_eq] at digit
  exact digit

theorem byte_toNat (digit : c.isDigit) : (byte c).toNat = c.toNat := by
  obtain ⟨low, high⟩ := isDigit_bounds digit
  rw [byte, BitVec.toNat_ofNat]
  omega

theorem isdigit_byte (digit : c.isDigit) : isdigit (byte c) := by
  obtain ⟨low, high⟩ := isDigit_bounds digit
  have value := byte_toNat digit
  have zero : (byte '0').toNat = 48 := by decide
  have nine : (byte '9').toNat = 57 := by decide
  simp only [isdigit, Bool.and_eq_true, decide_eq_true_eq, BitVec.le_def]
  omega

theorem digitValue_byte (digit : c.isDigit) : digitValue (byte c) = c.toNat - 48 := by
  rw [digitValue, if_pos (isdigit_byte digit), byte_toNat digit]

end digits

theorem decimal_eq (n : Nat) : decimal n = (Nat.toDigits 10 n).map byte := by
  have text : (toString n).toList = Nat.toDigits 10 n := Nat.toList_repr
  rw [decimal, bytes, text]

theorem isdigit_decimal {n : Nat} {d : Byte} (inside : d ∈ decimal n) : isdigit d := by
  rw [decimal_eq] at inside
  obtain ⟨c, printed, rfl⟩ := List.mem_map.mp inside
  exact isdigit_byte (Nat.isDigit_of_mem_toDigits (by decide) (by decide) printed)

theorem decimal_ne_nil (n : Nat) : decimal n ≠ [] := by
  rw [decimal_eq]
  simp [Nat.toDigits_ne_nil]

theorem digitsValue_decimal (n : Nat) : digitsValue 10 (decimal n) = n := by
  have chars {cs : List Char} (all : ∀ c ∈ cs, c.isDigit) (start : Nat) :
      (cs.map byte).foldl (fun v d => v * 10 + digitValue d) start =
        Nat.ofDigitChars 10 cs start := by
    induction cs generalizing start with
    | nil => rw [Nat.ofDigitChars_nil]; rfl
    | cons c cs ih =>
      have here := digitValue_byte (all c (List.mem_cons_self ..))
      rw [List.map_cons, List.foldl_cons, here, Nat.ofDigitChars_cons, Nat.mul_comm start 10]
      exact ih (fun d inside => all d (List.mem_cons_of_mem _ inside)) _
  rw [decimal_eq, digitsValue, chars, Nat.ofDigitChars_ten_toDigits]
  exact fun c printed => Nat.isDigit_of_mem_toDigits (by decide) (by decide) printed

theorem isDigitOf_ten : ∀ {d : Byte}, isdigit d → isDigitOf 10 d := by decide +kernel

theorem digit_plain : ∀ d, isDigitOf 16 d → isspace d = false ∧ d ≠ byte '-' ∧ d ≠ byte '+' ∧
    tolower d ≠ byte 'x' := by
  decide +kernel

theorem isDigitOf_mono {base : Nat} (small : base ≤ 16) {d : Byte} (digit : isDigitOf base d) :
    isDigitOf 16 d := by
  simp only [isDigitOf, decide_eq_true_eq] at digit ⊢
  omega

section
variable {base : Nat} {ds rest : List Byte}

theorem not_prefixed (small : base ≤ 16) (nonempty : ds ≠ []) (all : ∀ d ∈ ds, isDigitOf base d)
    (stop : ∀ d ∈ rest.head?, isDigitOf base d = false ∧ tolower d ≠ byte 'x') {z x e : Byte}
    {tail : List Byte} (same : ds ++ rest = z :: x :: e :: tail) : tolower x ≠ byte 'x' := by
  match ds, same with
  | [_], same =>
    obtain ⟨-, same⟩ := List.cons.inj same
    exact (stop x (by simp at same; simp [same])).2
  | _ :: y :: ds, same =>
    obtain ⟨-, same⟩ := List.cons.inj same
    obtain ⟨rfl, -⟩ := List.cons.inj same
    exact (digit_plain y (isDigitOf_mono small (all y (by simp)))).2.2.2

theorem strtol_signed (small : base ≤ 16) (minus : Bool) (nonempty : ds ≠ [])
    (all : ∀ d ∈ ds, isDigitOf base d)
    (stop : ∀ d ∈ rest.head?, isDigitOf base d = false ∧ tolower d ≠ byte 'x') :
    strtol base ((if minus then [byte '-'] else []) ++ (ds ++ rest)) =
      some (if minus then -(digitsValue base ds : Int) else digitsValue base ds) := by
  have whole : (ds ++ rest).takeWhile (isDigitOf base) = ds := by
    rw [List.takeWhile_append_of_pos all]
    cases rest with
    | nil => simp
    | cons e es => simp [(stop e rfl).1]
  have letter {z x e : Byte} {tail : List Byte} (same : ds ++ rest = z :: x :: e :: tail) :
      ¬ (base = 16 ∧ z = byte '0' ∧ tolower x = byte 'x' ∧ isDigitOf 16 e = true) :=
    fun prefixed => not_prefixed small nonempty all stop same prefixed.2.2.1
  have first : ∀ d ∈ (ds ++ rest).head?, isspace d = false ∧ d ≠ byte '-' ∧ d ≠ byte '+' := by
    intro d head
    obtain ⟨e, es, rfl⟩ := List.exists_cons_of_ne_nil nonempty
    cases head
    have plain := digit_plain d (isDigitOf_mono small (all d List.mem_cons_self))
    exact ⟨plain.1, plain.2.1, plain.2.2.1⟩
  have filled : ds ++ rest ≠ [] := by simp [nonempty]
  generalize ds ++ rest = text at *
  obtain ⟨d, text, rfl⟩ := List.exists_cons_of_ne_nil filled
  have plain := first d rfl
  cases minus with
  | true =>
    have skipped : (byte '-' :: d :: text).dropWhile isspace = byte '-' :: d :: text :=
      List.dropWhile_cons_of_neg (by decide)
    simp only [strtol, if_true, List.singleton_append, skipped, List.head?_cons, true_or,
      List.tail_cons]
    split
    · rename_i same
      rw [if_neg (letter same), whole, if_neg nonempty]
    · rw [whole, if_neg nonempty]
  | false =>
    have skipped : (d :: text).dropWhile isspace = d :: text :=
      List.dropWhile_cons_of_neg (by simp [plain.1])
    have unsigned : ¬ (some d = some (byte '-') ∨ some d = some (byte '+')) := by
      simp [plain.2.1, plain.2.2]
    have positive : ¬ some d = some (byte '-') := fun same => unsigned (.inl same)
    simp only [strtol, Bool.false_eq_true, if_false, List.nil_append, skipped, List.head?_cons,
      if_neg unsigned,
      if_neg positive]
    split
    · rename_i same
      rw [if_neg (letter same), whole, if_neg nonempty]
    · rw [whole, if_neg nonempty]

end

theorem strtol_decimal (n : Nat) {rest : List Byte}
    (stop : ∀ d ∈ rest.head?, isDigitOf 10 d = false ∧ tolower d ≠ byte 'x') :
    strtol 10 (decimal n ++ rest) = some (n : Int) := by
  have read := strtol_signed (by decide) false (decimal_ne_nil n)
    (fun d inside => isDigitOf_ten (isdigit_decimal inside)) stop
  rw [digitsValue_decimal] at read
  exact read

theorem strtol_hexadecimal {ds rest : List Byte} (nonempty : ds ≠ [])
    (all : ∀ d ∈ ds, isDigitOf 16 d)
    (stop : ∀ d ∈ rest.head?, isDigitOf 16 d = false ∧ tolower d ≠ byte 'x') :
    strtol 16 (ds ++ rest) = some (digitsValue 16 ds : Int) :=
  strtol_signed le_rfl false nonempty all stop

end LC3Tools
