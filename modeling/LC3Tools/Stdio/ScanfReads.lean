import LC3Tools.Stdio.ScanfCall
import LC3Tools.Stdio.Printf

/-! `scanf` reads back what `printf` writes, and writes nowhere else. -/
namespace LC3Tools.Stdio.Scanf
open Emit StateTransition Printf

/-! The characters of a number. -/

section
variable {text taken rest : List Byte} {c : Byte}

theorem digit_byte {d : Char} (digit : d.isDigit) : (byte d).toNat = d.toNat ∧ 48 ≤ d.toNat ∧
    d.toNat ≤ 57 := by
  simp only [Char.isDigit, Bool.and_eq_true, decide_eq_true_eq, ge_iff_le,
    UInt32.le_iff_toNat_le] at digit
  have bounds : 48 ≤ d.toNat ∧ d.toNat ≤ 57 := digit
  refine ⟨?_, bounds⟩
  rw [byte, BitVec.toNat_ofNat]
  omega

theorem digits_accepted (x : Nat) : ∀ c ∈ (Nat.toDigits 10 x).map byte, accepted c = true := by
  intro c mem
  obtain ⟨d, inside, rfl⟩ := List.mem_map.mp mem
  have digit := digit_byte (Nat.isDigit_of_mem_toDigits (by decide) (by decide) inside)
  rw [accepted_iff]
  omega

theorem numeral_accepted (n : Word) : ∀ c ∈ numeral 10 n, accepted c = true := by
  intro c mem
  rcases List.mem_append.mp mem with sign | digit
  · split at sign
    · rw [List.mem_singleton.mp sign]
      decide
    · cases sign
  · exact digits_accepted _ c digit

theorem numeral_length (n : Word) : 0 < (numeral 10 n).length ∧
    (numeral 10 n).length ≤ capacity := by
  have digits : (Nat.toDigits 10 n.toInt.natAbs).length ≤ 5 :=
    (Nat.length_toDigits_le_iff (by decide) (by decide)).mpr (by have := magnitude_small n; omega)
  have positive : 0 < (Nat.toDigits 10 n.toInt.natAbs).length := Nat.length_toDigits_pos
  have sign : (if n.toInt < 0 then [byte '-'] else []).length ≤ 1 := by
    split <;> decide
  rw [numeral, List.length_append, List.length_map, capacity]
  omega

/-- A text that fits is taken as it is. The character behind it goes unless the buffer is full. -/
theorem scan_text (every : ∀ c ∈ text, accepted c = true) (short : taken.length < capacity)
    (fits : (taken ++ text).length ≤ capacity) (nonempty : taken ++ text ≠ [])
    (other : accepted c = false) :
    scan taken (text ++ c :: rest) =
      some (taken ++ text, if (taken ++ text).length = capacity then c :: rest else rest) := by
  induction text generalizing taken with
  | nil =>
    rw [List.append_nil] at nonempty ⊢
    rw [List.nil_append, scan, if_neg (by rw [other]; decide), if_neg nonempty,
      if_neg (Nat.ne_of_lt short)]
  | cons d text ih =>
    have whole : taken ++ d :: text = taken ++ [d] ++ text := by simp
    rw [List.cons_append, scan, if_pos (every d List.mem_cons_self)]
    split
    · rename_i full
      have none : text = [] := by
        rw [List.length_append, List.length_cons] at fits
        exact List.eq_nil_of_length_eq_zero (by omega)
      subst none
      rw [List.nil_append, if_pos]
      rw [List.length_append, List.length_singleton, full]
    · rename_i more
      rw [whole] at fits nonempty ⊢
      refine ih (fun c mem => every c (List.mem_cons_of_mem _ mem)) ?_ fits nonempty
      rw [List.length_append, List.length_singleton]
      omega

end

/-! The value of a number. -/

/-- What one character does to the sum. -/
def add (v : Word) (c : Byte) : Word := v * 10 + (c.setWidth 16 - 48)

section
variable {base p : Word} {mem : Word → Word} {text : List Byte}

theorem sumFrom_text {c : Byte}
    (held : ∀ j d, (c :: text)[j]? = some d → mem (p + BitVec.ofNat 16 j) = d.setWidth 16)
    (u : Word) : sumFrom mem text.length p (u * 10) = (c :: text).foldl add u := by
  have first : mem p = c.setWidth 16 := by
    have := held 0 c rfl
    rwa [BitVec.add_zero] at this
  induction text generalizing c p u with
  | nil =>
    rw [List.length_nil, sumFrom, first]
    rfl
  | cons d text ih =>
    have later (j : Nat) (e : Byte) (there : (d :: text)[j]? = some e) :
        mem (p + 1 + BitVec.ofNat 16 j) = e.setWidth 16 := by
      have := held (j + 1) e there
      rwa [Nat.add_comm, BitVec.ofNat_add, ← BitVec.add_assoc] at this
    rw [List.length_cons, sumFrom, first, ih later]
    · rfl
    · have := later 0 d rfl
      rwa [BitVec.add_zero] at this

theorem foldl_digits (digits : List Char) (every : ∀ d ∈ digits, d.isDigit) (u : Nat) :
    (digits.map byte).foldl add (BitVec.ofNat 16 u) = BitVec.ofNat 16
    (Nat.ofDigitChars 10 digits u) := by
  induction digits generalizing u with
  | nil => rw [Nat.ofDigitChars_nil]; rfl
  | cons d digits ih =>
    have digit := digit_byte (every d List.mem_cons_self)
    have next : add (BitVec.ofNat 16 u) (byte d) = BitVec.ofNat 16
      (10 * u + (d.toNat - '0'.toNat)) := by
      have zero : '0'.toNat = 48 := rfl
      have low : (byte d).setWidth 16 - 48 = BitVec.ofNat 16 (d.toNat - 48) := by
        rw [wide, digit.1]
        exact ofNat_sub digit.2.1
      rw [add, low, zero, BitVec.ofNat_add, BitVec.ofNat_mul, BitVec.mul_comm]
      rfl
    rw [List.map_cons, List.foldl_cons, next,
      ih (fun d mem => every d (List.mem_cons_of_mem _ mem)),
      Nat.ofDigitChars_cons]

theorem buf_add (i d : Nat) :
    routine.place base .buf (i + d) = routine.place base .buf i + BitVec.ofNat 16 d := by
  rw [Routine.place, Routine.place, ← Nat.add_assoc, BitVec.ofNat_add, BitVec.add_assoc]

theorem sum_digits {i x : Nat} (held : ∀ j d, ((Nat.toDigits 10 x).map byte)[j]? = some d →
      mem (routine.place base .buf (i + j)) = d.setWidth 16) :
    sumFrom mem ((Nat.toDigits 10 x).length - 1) (routine.place base .buf i) 0 =
      BitVec.ofNat 16 x := by
  have every : ∀ d ∈ Nat.toDigits 10 x, d.isDigit :=
    fun d mem => Nat.isDigit_of_mem_toDigits (by decide) (by decide) mem
  have sum := foldl_digits (Nat.toDigits 10 x) every 0
  rw [Nat.ofDigitChars_ten_toDigits] at sum
  rw [← sum, ← List.length_map byte]
  generalize given : (Nat.toDigits 10 x).map byte = digits at held
  cases digits with
  | nil =>
    have := congrArg List.length given
    rw [List.length_map, List.length_nil] at this
    exact absurd (Nat.length_toDigits_pos (b := 10) (n := x)) (by omega)
  | cons c text =>
    refine sumFrom_text (fun j d there => ?_) 0
    rw [← buf_add]
    exact held j d there

theorem numeral_value {n : Word} (filled : Filled base mem (numeral 10 n)) :
    sumUpTo base mem (routine.place base .buf ((numeral 10 n).length - 1)) = n := by
  unfold sumUpTo
  have positive : 0 < (Nat.toDigits 10 n.toInt.natAbs).length := Nat.length_toDigits_pos
  have sign : n.msb = decide (n.toInt < 0) := BitVec.msb_eq_toInt
  have word := magnitude n
  by_cases below : n.toInt < 0
  · have shape : numeral 10 n = byte '-' :: (Nat.toDigits 10 n.toInt.natAbs).map byte := by
      rw [numeral, if_pos below]
      rfl
    have size : (numeral 10 n).length - 1 = 1 + ((Nat.toDigits 10 n.toInt.natAbs).length - 1) := by
      rw [shape, List.length_cons, List.length_map]
      omega
    have first : mem (routine.place base .buf 0) = 45 := filled 0 (byte '-') (by rw [shape]; rfl)
    have small := (numeral_length n).2
    rw [capacity] at small
    rw [if_pos first, size, buf_add, offset_from (by omega), sum_digits, word, sign,
      decide_eq_true below, if_pos rfl,
      BitVec.neg_neg]
    intro j d there
    rw [Nat.add_comm]
    exact filled (j + 1) d (by rw [shape]; exact there)
  · have shape : numeral 10 n = (Nat.toDigits 10 n.toInt.natAbs).map byte := by
      rw [numeral, if_neg below]
      rfl
    have first : mem (routine.place base .buf 0) ≠ 45 := by
      obtain ⟨d, digits, given⟩ := List.exists_cons_of_length_pos positive
      have digit := digit_byte
          (Nat.isDigit_of_mem_toDigits (by decide) (by decide) (given ▸ List.mem_cons_self))
      have held := filled 0 (byte d) (by rw [shape, given]; rfl)
      intro minus
      have low := congrArg BitVec.toNat (held.symm.trans minus)
      rw [wide, BitVec.toNat_ofNat, digit.1, Nat.mod_eq_of_lt (by omega)] at low
      have fortyfive : (45 : Word).toNat = 45 := rfl
      omega
    have size : (numeral 10 n).length - 1 = 0 + ((Nat.toDigits 10 n.toInt.natAbs).length - 1) := by
      rw [shape, List.length_map, Nat.zero_add]
    have small := (numeral_length n).2
    rw [capacity] at small
    rw [if_neg first, size, buf_add, offset_from (by omega), sum_digits, word, sign,
      decide_eq_false below,
      if_neg Bool.false_ne_true]
    intro j d there
    rw [Nat.zero_add]
    exact filled j d (by rw [shape]; exact there)

end

/-! The call. -/

section
variable {os : Os} {g : Byte → Byte} {base sp target : Word} {s t₂ t₃ : State}

/-- The words of the stack are outside of the routine, and so is the target. -/
structure Apart (base sp target : Word) : Prop where
  room : ∀ k < (cells routine.items).length, base + BitVec.ofNat 16 k ∉ stack sp
  outside : ∀ k < (cells routine.items).length, base + BitVec.ofNat 16 k ≠ target
  free : target ∉ stack sp

theorem buffer_inside
    (room : ∀ k < (cells routine.items).length, base + BitVec.ofNat 16 k ∉ stack sp) {a : Word}
    (inside : a ∈ stack sp) : ¬ Buffer base a := by
  rintro ⟨j, less, rfl⟩
  have := buf_inside
  exact room (index routine.items .buf + j) (by omega) inside

theorem pointer_outside
    (room : ∀ k < (cells routine.items).length, base + BitVec.ofNat 16 k ∉ stack sp) :
    ¬ Buffer base (sp + 1) := by
  rintro ⟨j, less, same⟩
  have inside := buf_inside
  have front : 3 ≤ index routine.items .buf := by decide +kernel
  obtain ⟨i, here⟩ := Nat.exists_eq_add_of_le front
  refine room (i + j) (by omega) ?_
  have higher : sp + 1 = base + BitVec.ofNat 16 (i + j) + 3 := by
    have sum : index routine.items .buf + j = i + j + 3 := by omega
    rw [same, Routine.place, sum, BitVec.ofNat_add, BitVec.add_assoc]
    rfl
  have lower : base + BitVec.ofNat 16 (i + j) = sp - 2 := by
    have two : (1 : Word) - 3 = -2 := by decide
    rw [← BitVec.add_sub_cancel (base + _) 3, ← higher, add_sub_assoc, two, BitVec.sub_eq_add_neg]
  rw [lower]
  simp [stack, saves]

theorem stack_above (sp : Word) : sp + 1 ∉ stack sp := by
  have lower (n : Word) (other : 1 + n ≠ 0) : sp + 1 ≠ sp - n := fun same =>
    other (add_eq_left.mp (by rw [← BitVec.add_assoc, same, BitVec.sub_add_cancel]))
  simp only [stack, saves, List.cons_append, List.nil_append, List.mem_cons, List.not_mem_nil,
    or_false, not_or]
  exact ⟨lower 2 (by decide), lower 3 (by decide), lower 4 (by decide), lower 5 (by decide)⟩

theorem format_string {mem : Word → Word} {a : Word} (string : stringAt mem a = some [37, 100]) :
    mem a = 37 ∧ mem (a + 1) = 100 ∧ mem (a + 1 + 1) = 0 := by
  obtain ⟨n, second⟩ := stringFrom_drop [37] string
  obtain ⟨m, third⟩ := stringFrom_drop [100] second
  exact ⟨(stringFrom_cons string).1, (stringFrom_cons second).1, stringFrom_nil third⟩

/-- A call of `scanf` with the format `%d`. -/
structure Called (base sp target : Word) (s : State) : Prop where
  loaded : routine.Loaded base s.machine.mem
  pc : s.pc = routine.place base .scanf 0
  six : s.machine.reg 6 = sp
  pointer : s.machine.mem (sp + 1) = target
  apart : Apart base sp target
  format : Settled (Written base sp target) s.machine.mem fun mem => stringAt mem
    (s.machine.mem sp) = some [37, 100]

/-- The call has come to the first character of the number. -/
structure Begun (base sp target : Word) (s t : State) : Prop where
  five : t.machine.reg 5 = sp
  six : t.machine.reg 6 = sp - 5
  mem : t.machine.mem = fun a => if a = sp - 5 then s.machine.mem sp + 1 else saved s sp a
  input : t.input = s.input

variable (os) in
theorem call_begun (called : Called base sp target s) :
    ∃ t, Path os (Written base sp target) s t ∧ Scanning base [] t ∧ Begun base sp target s t := by
  have room : Room routine base sp :=
    fun k inside mem => called.apart.room k inside (List.mem_append_left _ mem)
  obtain ⟨t₁, path₁, pc₁, loaded₁, mem₁, four₁, five₁, six₁, input₁, output₁⟩ :=
    entered os called.loaded called.pc (by decide +kernel) called.six room
  have four₁ : t₁.machine.reg 4 = s.machine.mem sp := by
    rw [four₁, mem₁, saved_outside (stack_top sp)]
  have path₁ : Path os (Written base sp target) s t₁ :=
    path₁.mono fun a inside => .inr (.inl (List.mem_append_left _ inside))
  have string₁ := format_string (called.format t₁.machine.mem path₁.mem)
  have lower : t₁.machine.reg 6 - 1 = sp - 5 := by
    rw [six₁, sub_sub]
    rfl
  obtain ⟨t₂, path₂, scanning, five₂, six₂, mem₂, input₂⟩ := conversion_begun os loaded₁
    (pc₁.trans (routine.place_eq (by decide +kernel))) (four₁ ▸ string₁.1) (four₁ ▸ string₁.2.1)
    (fun k inside same => called.apart.room k inside (by rw [same, lower]; simp [stack]))
  rw [lower] at path₂ six₂ mem₂
  have path₂ : Path os (Written base sp target) s t₂ := path₁.trans (path₂.mono fun a inside => by
    rcases inside with buffer | same
    · exact .inl buffer
    · exact .inr (.inl (by rw [same]; simp [stack])))
  exact ⟨t₂, path₂, scanning, five₂.trans five₁,
    six₂, by rw [mem₂, four₁, mem₁], input₂.trans input₁⟩

variable (os) in
/-- From the last character of a number back to the caller, whatever the buffer holds. -/
theorem call_ended (called : Called base sp target s) (begun : Begun base sp target s t₂)
    (path₂ : Path os (Written base sp target) s t₂) (path₃ : Path os (Buffer base) t₂ t₃)
    (taken : Taken base t₂ t₃) :
    ∃ t, Path os (Written base sp target) s t ∧ t.pc = s.machine.reg 7 ∧
      t.machine.reg 4 = s.machine.reg 4 ∧
      t.machine.reg 5 = s.machine.reg 5 ∧ t.machine.reg 6 = sp - 1 ∧ t.input = t₃.input ∧
      t.machine.mem target = sumUpTo base t₃.machine.mem (t₃.machine.reg 4) := by
  obtain ⟨t₄, path₄, pc₄, kept₄, two₄⟩ := valued os taken.loaded taken.pc
  have path₄ : Path os (Buffer base) t₂ t₄ := path₃.trans path₄
  have front : Path os (Written base sp target) s t₄ := path₂.trans (path₄.mono fun _ => .inl)
  have apart := called.apart
  have five₄ : t₄.machine.reg 5 = sp := by
    rw [kept₄.reg 5 (by decide), taken.reg 5 (by decide), begun.five]
  have six₄ : t₄.machine.reg 6 = sp - 5 := by
    rw [kept₄.reg 6 (by decide), taken.reg 6 (by decide), begun.six]
  have top₄ : t₄.machine.mem (sp - 5) = s.machine.mem sp + 1 := by
    rw [path₄.mem _ (buffer_inside apart.room (by simp [stack])), begun.mem]
    exact if_pos rfl
  have saves₄ {a : Word} (away : ¬ Buffer base a) (other : a ≠ sp - 5) :
    t₄.machine.mem a = saved s sp a := by
    rw [path₄.mem a away, begun.mem]
    exact if_neg other
  have pointer₄ : t₄.machine.mem (sp + 1) = target := by
    have above := stack_above sp
    rw [saves₄ (pointer_outside apart.room) fun same => above (by rw [same]; simp [stack]),
      saved_outside fun inside => above (List.mem_append_left _ inside), called.pointer]
  have different : sp - 4 ≠ sp - 5 ∧ sp - 3 ≠ sp - 5 ∧ sp - 2 ≠ sp - 5 := by
    simp only [ne_eq, sub_right_inj]
    decide
  have final : t₄.machine.mem (s.machine.mem sp + 1 + 1) = 0 :=
    (format_string (called.format _ front.mem)).2.2
  have other : s.machine.mem sp + 1 + 1 ≠ target := fun same => by
    have changed := format_string
        (called.format (fun a => if a = target then 1 else s.machine.mem a)
      fun a away => if_neg fun here => away (.inr (.inr here)))
    exact absurd ((if_pos same).symm.trans changed.2.2) (by decide)
  have word (a : Word) (inside : a ∈ stack sp) : ¬ Buffer base a := buffer_inside apart.room inside
  obtain ⟨t, path, pc', four, five, six', mem, input⟩ :=
    returned os (kept₄.mem ▸ taken.loaded) pc₄ five₄ six₄
    pointer₄ apart.outside apart.free top₄ final other
    ((saves₄ (word _ (by simp [stack, saves])) different.1).trans (saved_inside s sp).1)
    ((saves₄ (word _ (by simp [stack, saves])) different.2.1).trans (saved_inside s sp).2.1)
    ((saves₄ (word _ (by simp [stack, saves])) different.2.2).trans (saved_inside s sp).2.2)
  refine ⟨t, front.trans (path.mono fun a inside => inside.imp_right .inr), pc', four, five, six',
    input.trans kept₄.input, ?_⟩
  rw [mem, ← two₄]
  exact if_pos rfl

variable (os) in
theorem call_runs (leaves : Leaves os g) (called : Called base sp target s) :
    match scan [] (s.input.map g) with
    | some (text, rest) => ∃ t, Path os (Written base sp target) s t ∧ t.pc = s.machine.reg 7 ∧
        t.machine.reg 4 = s.machine.reg 4 ∧ t.machine.reg 5 = s.machine.reg 5 ∧
          t.machine.reg 6 = sp - 1 ∧
        t.input.map g = rest ∧ ∃ mem, Filled base mem text ∧
          t.machine.mem target = sumUpTo base mem (routine.place base .buf (text.length - 1))
    | none => ∃ t, Path os (Written base sp target) s t ∧ Waits os base t := by
  obtain ⟨t₂, path₂, scanning, begun⟩ := call_begun os called
  have scanned := number_scanned os leaves scanning
  rw [begun.input] at scanned
  cases found : scan [] (s.input.map g) with
  | none =>
    rw [found] at scanned
    obtain ⟨t, path, waits⟩ := scanned
    exact ⟨t, path₂.trans (path.mono fun _ => .inl), waits⟩
  | some result =>
    obtain ⟨text, rest⟩ := result
    rw [found] at scanned
    obtain ⟨t₃, path₃, scanned, input₃⟩ := scanned
    obtain ⟨t, path, pc, four, five, six, input, value⟩ :=
      call_ended os called begun path₂ path₃ ⟨scanned.pc, scanned.loaded, scanned.reg⟩
    exact ⟨t, path, pc, four, five, six, by rw [input, input₃], t₃.machine.mem,
      scanned.filled, by rw [value, scanned.last]⟩

variable (os) in
theorem call_writes (called : Called base sp target s) :
    ∃ t, Path os (Written base sp target) s t ∧ (t.pc = s.machine.reg 7 ∨ Waits os base t) := by
  obtain ⟨t₂, path₂, scanning, begun⟩ := call_begun os called
  obtain ⟨t₃, path₃, ends⟩ :=
    number_taken os ⟨scanning.pc, scanning.loaded, scanning.next, scanning.room⟩
  rcases ends with taken | waits
  · obtain ⟨t, path, pc, -⟩ := call_ended os called begun path₂ path₃ taken
    exact ⟨t, path, .inl pc⟩
  · exact ⟨t₃, path₂.trans (path₃.mono fun _ => .inl), .inr waits⟩

/-- A number that was printed is read back with the character behind it, unless it fills the
buffer. -/
theorem scan_numeral (n : Word) (c : Byte) (rest : List Byte) (other : accepted c = false) :
    scan [] (numeral 10 n ++ c :: rest) =
      some (numeral 10 n, if (numeral 10 n).length = capacity then c :: rest else rest) := by
  have size := numeral_length n
  exact scan_text (numeral_accepted n) (by decide) size.2 (List.ne_nil_of_length_pos size.1) other

/-- `scanf` reads a number back that was printed, where OUT leaves its character in R0. Whatever the
services leave there, it writes nowhere but in its buffer, the stack and the target. -/
theorem scanf_reads_back (os : Os) (called : Called base sp target s) :
    (Leaves os id → ∀ n c rest, accepted c = false → s.input = numeral 10 n ++ c :: rest →
      ∃ t, Path os (Written base sp target) s t ∧ t.pc = s.machine.reg 7 ∧
        t.machine.mem target = n ∧
        t.input = (if (numeral 10 n).length = capacity then c :: rest else rest) ∧
        t.machine.reg 4 = s.machine.reg 4 ∧ t.machine.reg 5 = s.machine.reg 5 ∧
          t.machine.reg 6 = sp - 1) ∧
    ∃ t, Path os (Written base sp target) s t ∧ (t.pc = s.machine.reg 7 ∨ Waits os base t) := by
  refine ⟨fun keeps n c rest other input => ?_, call_writes os called⟩
  have whole := call_runs os keeps called
  rw [List.map_id, input, scan_numeral n c rest other] at whole
  obtain ⟨t, path, pc', four, five, six', left, mem, filled, value⟩ := whole
  exact ⟨t, path, pc', value.trans (numeral_value filled), (List.map_id _).symm.trans left, four,
    five, six'⟩

end

/-- The memory for a call with the format `%d`. The caller halts behind it. -/
def callMemory : Word → Word :=
  routine.load 0x3000 fun a => if a = 0xf000 then 0x5000 else if a = 0xf001 then 0x6000
    else if a = 0x5000 then 37 else if a = 0x5001 then 100 else if a = 0x4000 then 0xf025 else 0

def callState (input : List Byte) : State where
  machine := {
    reg := fun i => if i = 6 then 0xf000 else if i = 7 then 0x4000 else 0
    mem := callMemory
    last := 0 }
  pc := routine.place 0x3000 .scanf 0
  input := input
  output := []

/-- OUT keeps R0 here. -/
def keeping : Os := ⟨fun s => s.machine.reg 0, fun _ => 0, fun _ => 0⟩

/-- OUT clears R0 here. -/
def clearing : Os := ⟨fun _ => 0, fun _ => 0, fun _ => 0⟩

theorem keeping_leaves : Leaves keeping id := fun _ _ value => value

theorem callMemory_loaded : routine.Loaded 0x3000 callMemory :=
  Routine.load_loaded (Nat.le_of_lt size_small)

theorem callState_stack (input : List Byte) : (callState input).machine.reg 6 = 0xf000 := rfl

theorem callMemory_pointer : callMemory (0xf000 + 1) = 0x6000 := by decide +kernel

theorem callMemory_format : Settled (Written 0x3000 0xf000 0x6000) callMemory fun mem =>
    stringAt mem (callMemory 0xf000) = some [37, 100] := by
  intro mem same
  have pointer : callMemory 0xf000 = 0x5000 := by decide +kernel
  have percent : mem 0x5000 = 37 := (same 0x5000 (by decide +kernel)).trans (by decide +kernel)
  have letter : mem 0x5001 = 100 := (same 0x5001 (by decide +kernel)).trans (by decide +kernel)
  have final : mem 0x5002 = 0 := (same 0x5002 (by decide +kernel)).trans (by decide +kernel)
  have text : stringFrom mem 3 0x5000 = some [37, 100] :=
    stringFrom_next percent (by decide)
      (stringFrom_next letter (by decide) (stringFrom_end 0 final))
  rw [pointer]
  exact stringFrom_mono text (by decide)

theorem callMemory_apart : Apart 0x3000 0xf000 0x6000 :=
  ⟨by decide +kernel, by decide +kernel, by decide +kernel⟩

theorem callState_called (input : List Byte) : Called 0x3000 0xf000 0x6000 (callState input) :=
  ⟨callMemory_loaded, rfl, callState_stack _, callMemory_pointer, callMemory_apart,
    callMemory_format⟩

theorem halted {os : Os} {input : List Byte} {t : State}
    (path : Path os (Written 0x3000 0xf000 0x6000) (callState input) t)
    (pc : t.pc = 0x4000) : step os t = none := by
  have halt : callMemory 0x4000 = 0xf025 := by decide +kernel
  have word : t.machine.mem 0x4000 = 0xf025 := (path.mem 0x4000 (by decide +kernel)).trans halt
  rw [step, pc, word]
  rfl

/-- The newline behind a number of six characters stays in the input, and where OUT does not keep
its character nothing is read at all. -/
theorem newline_left :
    (¬ ∃ t, Reaches (step keeping) (callState (numeral 10 0x8000 ++ [10])) t ∧ t.pc = 0x4000 ∧
      t.input = []) ∧
      ¬ ∃ t, Reaches (step clearing) (callState [byte '5', 10]) t ∧ t.pc = 0x4000 := by
  constructor
  · rintro ⟨u, reaches, -, empty⟩
    have run := call_runs keeping keeping_leaves (callState_called (numeral 10 0x8000 ++ [10]))
    have scanned : scan [] ((callState (numeral 10 0x8000 ++ [10])).input.map id) = some
      (numeral 10 0x8000, [10]) := by
      decide +kernel
    rw [scanned] at run
    obtain ⟨t, path, pc, -, -, -, left, -⟩ := run
    have behind := reaches_final path.reaches (halted path pc) reaches
    have shorter := (input_suffix behind).length_le
    rw [empty, ← List.length_map id, left] at shorter
    exact absurd shorter (by decide)
  · rintro ⟨u, reaches, pc⟩
    have leaves : Leaves clearing fun _ => 0 := fun _ _ _ => rfl
    have run := call_runs clearing leaves (callState_called [byte '5', 10])
    have scanned : scan [] ((callState [byte '5', 10]).input.map fun _ => 0) =
      none := by decide +kernel
    rw [scanned] at run
    obtain ⟨t, path, here, -, final⟩ := run
    have same : u = t := by
      rcases (reaches_final path.reaches final reaches).cases_head with same | ⟨v, stepped, -⟩
      · exact same
      · cases (halted (path.every final reaches) pc).symm.trans stepped
    rw [← same, pc] at here
    exact absurd here (by decide +kernel)

theorem scanf_reads_back_digit : ∃ t, Path keeping (Written 0x3000 0xf000 0x6000)
    (callState (numeral 10 (-42) ++ [10])) t ∧ t.pc = 0x4000 ∧ t.machine.mem 0x6000 = -42 ∧
      t.input = [] := by
  have reads := (scanf_reads_back keeping (callState_called (numeral 10 (-42) ++ [10]))).1
    keeping_leaves
  obtain ⟨t, path, pc, value, left, -⟩ := reads (-42) 10 [] (by decide) rfl
  have short : ¬ (numeral 10 (-42)).length = capacity := by decide +kernel
  rw [if_neg short] at left
  exact ⟨t, path, pc, value, left⟩

end LC3Tools.Stdio.Scanf
