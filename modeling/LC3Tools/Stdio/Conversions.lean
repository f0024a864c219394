import LC3Tools.Stdio.Digits
import LC3Tools.Stdio.Saving

/-! Every conversion of `printf`, and the choice between them. -/
namespace LC3Tools.Stdio.Printf
open Emit StateTransition Inst

set_option maxRecDepth 8000

/-- So many characters of the format and so many arguments further on, with the text that was
printed. -/
structure Printed (base : Word) (s t : State) (used : Nat) (text : List Byte) (taken : Nat) :
    Prop where
  pc : t.pc = routine.place base .loop 0
  loaded : routine.Loaded base t.machine.mem
  format : t.machine.reg 4 = s.machine.reg 4 + BitVec.ofNat 16 used
  argument : t.machine.reg 5 = s.machine.reg 5 + BitVec.ofNat 16 taken
  stack : t.machine.reg 6 = s.machine.reg 6
  input : t.input = s.input
  output : t.output = s.output ++ text
  mem : ∀ a, ¬ Buffer base a → t.machine.mem a = s.machine.mem a

section
variable {os : Os} {base : Word} {s t u : State} {text : List Byte} {used taken : Nat}

theorem Printed.before {rs : List (Fin 8)} (within : Within rs (Buffer base) s t)
    (printed : Printed base t u used text taken) (away : ∀ i ∈ [4, 5, 6], i ∉ rs) :
      Printed base s u used text taken where
  pc := printed.pc
  loaded := printed.loaded
  format := printed.format.trans (congrArg (· + _) (within.reg 4 (away 4 (by decide))))
  argument := printed.argument.trans (congrArg (· + _) (within.reg 5 (away 5 (by decide))))
  stack := printed.stack.trans (within.reg 6 (away 6 (by decide)))
  input := printed.input.trans within.input
  output := printed.output.trans (congrArg (· ++ text) within.output)
  mem := fun a outside => (printed.mem a outside).trans (within.mem a outside)

theorem Printed.taking {rs : List (Fin 8)} (within : Within rs (Buffer base) s t)
    (five : t.machine.reg 5 = s.machine.reg 5 + 1) (printed : Printed base t u used text 0)
    (away : ∀ i ∈ [4, 6], i ∉ rs) : Printed base s u used text 1 where
  pc := printed.pc
  loaded := printed.loaded
  format := printed.format.trans (congrArg (· + _) (within.reg 4 (away 4 (by decide))))
  argument := printed.argument.trans ((BitVec.add_zero _).trans five)
  stack := printed.stack.trans (within.reg 6 (away 6 (by decide)))
  input := printed.input.trans within.input
  output := printed.output.trans (congrArg (· ++ text) within.output)
  mem := fun a outside => (printed.mem a outside).trans (within.mem a outside)

variable (os) in
theorem advanced {start : Label} {n : Nat} (loaded : routine.Loaded base s.machine.mem)
    (pc : s.pc = routine.place base start n)
    (there : ([addImm 4 4 1] ++ [br true true true Label.loop]).map .inst <+:
      (cells routine.items).drop (index routine.items start + n)) :
    ∃ t, Path os (Buffer base) s t ∧ Printed base s t 1 [] 0 := by
  obtain ⟨t, reaches, pc', machine, kept⟩ :=
    Routine.branch os (Buffer base) loaded pc [addImm 4 4 1] true true true .loop there rfl
  rw [takes_always, if_pos rfl] at pc'
  refine ⟨t, reaches, pc', kept.mem ▸ loaded, ?_, ?_, kept.reg 6 (by decide), kept.input, ?_,
    fun a _ => ?_⟩
  · rw [machine]
    rfl
  · rw [kept.reg 5 (by decide)]
    exact (BitVec.add_zero _).symm
  · rw [kept.output, List.append_nil]
  · rw [kept.mem]

variable (os) in
theorem printed_called {start : Label} {n : Nat} (loaded : routine.Loaded base s.machine.mem)
    (pc : s.pc = routine.place base start n) (service : Service) (text : List Byte)
    (there : (cells routine.items)[index routine.items start + n]? = some (.inst (.trap service)))
    (behind : ([addImm 4 4 1] ++ [br true true true Label.loop]).map .inst <+:
      (cells routine.items).drop (index routine.items start + (n + 1)))
    (effect : service.effect os s = some (s.back os (os.r0 s) s.input (s.output ++ text))) :
    ∃ t, Path os (Buffer base) s t ∧ Printed base s t 1 text 0 := by
  obtain ⟨t, reaches, pc', -, reg, mem, input, output⟩ :=
    Routine.called os (Buffer base) loaded pc service there effect
  obtain ⟨u, reaches', printed⟩ := advanced os (mem ▸ loaded) pc' behind
  refine ⟨u, reaches.trans reaches', printed.pc, printed.loaded, ?_, ?_, ?_, ?_, ?_,
    fun a away => ?_⟩
  · rw [printed.format, reg 4 (by decide)]
  · rw [printed.argument, reg 5 (by decide)]
  · rw [printed.stack, reg 6 (by decide)]
  · rw [printed.input, input]
  · rw [printed.output, output, List.append_nil]
  · rw [printed.mem a away, mem]

end

/-- Words that stand one after the other. -/
def Held (mem : Word → Word) : Word → List Word → Prop
  | _, [] => True
  | a, w :: words => mem a = w ∧ Held mem (a + 1) words

/-- From here the piece is printed, whatever the arguments are, and so many characters of the format
are passed. -/
def Serves (os : Os) (base : Word) (s : State) (used : Nat) (piece : Piece) : Prop :=
  ∀ args text, Settled (Buffer base) s.machine.mem (fun mem =>
      Held mem (s.machine.reg 5 + 1) args ∧ piece.render mem args = some text) →
    ∃ t, Path os (Buffer base) s t ∧ Printed base s t used text piece.takes

section
variable {os : Os} {base : Word} {s t : State} {used : Nat} {piece : Piece} {c : Word}

theorem Serves.before {rs : List (Fin 8)} (serves : Serves os base t used piece)
    (reaches : Path os (Buffer base) s t)
    (kept : Kept rs s t) (away : ∀ i ∈ [4, 5, 6], i ∉ rs) : Serves os base s used piece := by
  intro args text settled
  obtain ⟨u, reaches', printed⟩ := serves args text (by
    rw [kept.mem, kept.reg 5 (away 5 (by decide))]
    exact settled)
  exact ⟨u, reaches.trans reaches', printed.before (kept.within _) away⟩

theorem literal_serves (loaded : routine.Loaded base s.machine.mem)
    (pc : s.pc = routine.place base .char 0)
    (value : s.machine.reg 0 = c) : Serves os base s 1 (.literal c) := by
  intro args text settled
  obtain ⟨-, rendered⟩ := settled.now
  cases rendered
  obtain ⟨t, reaches, printed⟩ := printed_called os loaded pc .out ([character c])
    (by decide) (by decide) (by rw [← value]; rfl)
  exact ⟨t, reaches, printed⟩

variable (os) in
theorem fetched {start : Label} {n : Nat} (loaded : routine.Loaded base s.machine.mem)
    (pc : s.pc = routine.place base start n)
    (there : ([addImm 5 5 1, ldr 0 5 0] : List (Inst Label)).map .inst <+:
      (cells routine.items).drop (index routine.items start + n)) :
    ∃ t, Path os (Buffer base) s t ∧ t.pc = routine.place base start (n + 2) ∧
      t.machine.reg 5 = s.machine.reg 5 + 1 ∧
        t.machine.reg 0 = s.machine.mem (s.machine.reg 5 + 1) ∧
      Kept [0, 5] s t := by
  obtain ⟨t, reaches, pc', machine, kept⟩ := Routine.piece os (Buffer base) loaded pc _ there rfl
  refine ⟨t, reaches, pc', ?_, ?_, kept.mono (by decide)⟩
  · rw [machine]
    rfl
  · rw [machine, ← plus_zero (s.machine.reg 5 + 1)]
    rfl

theorem char_behind (base : Word) : routine.place base .checkchar 6 = routine.place base .char 0 :=
  routine.place_eq (by decide)

theorem char_serves (loaded : routine.Loaded base s.machine.mem)
    (pc : s.pc = routine.place base .checkchar 4) :
    Serves os base s 1 .char := by
  intro args text settled
  obtain ⟨held, rendered⟩ := settled.now
  cases args with
  | nil => cases rendered
  | cons a args =>
    cases rendered
    obtain ⟨t, reaches, pc', five, zero, kept⟩ := fetched os loaded pc (by decide)
    obtain ⟨u, reaches', printed⟩ := printed_called os (kept.mem ▸ loaded)
      (pc'.trans (char_behind base)) .out ([character a])
      (by decide) (by decide) (by rw [← held.1, ← zero]; rfl)
    exact ⟨u, reaches.trans reaches', printed.taking (kept.within _) five (by decide)⟩

theorem string_serves (loaded : routine.Loaded base s.machine.mem)
    (pc : s.pc = routine.place base .checkstr 4) :
    Serves os base s 1 .string := by
  intro args text settled
  obtain ⟨held, rendered⟩ := settled.now
  cases args with
  | nil => cases rendered
  | cons a args =>
    obtain ⟨characters, found, rfl⟩ := Option.map_eq_some_iff.mp rendered
    obtain ⟨t, reaches, pc', five, zero, kept⟩ := fetched os loaded pc (by decide)
    obtain ⟨u, reaches', printed⟩ := printed_called os (kept.mem ▸ loaded) pc' .puts
      (characters.map character) (by decide) (by decide)
      (by rw [Service.effect, zero, held.1, kept.mem, found]; rfl)
    exact ⟨u, reaches.trans reaches', printed.taking (kept.within _) five (by decide)⟩

end

/-! Numbers. -/

section
variable {os : Os} {base : Word} {s : State} {w : Word}

theorem digit_character (c : Char) : character (digitWord c) = byte c :=
  BitVec.setWidth_ofNat_of_le (by decide) _

variable (os) in
theorem number_ready (loaded : routine.Loaded base s.machine.mem)
    (pc : s.pc = routine.place base .num 0)
    (argument : s.machine.mem (s.machine.reg 5 + 1) = w) :
    ∃ t, Path os (Buffer base) s t ∧ t.pc = routine.place base .decpos 0 ∧
      t.machine.reg 0 = BitVec.ofNat 16 w.toInt.natAbs ∧
        t.machine.reg 7 = routine.place base .buf 16 ∧
      t.machine.reg 5 = s.machine.reg 5 + 1 ∧ Kept [0, 5, 7] s t := by
  obtain ⟨t, reaches, pc', machine, kept⟩ := Routine.branch os (Buffer base) loaded pc
    [lea 7 .buf, addImm 7 7 15, addImm 7 7 1, addImm 5 5 1, ldr 0 5 0, addImm 0 0 0]
      false true true .decpos
    (by decide) rfl
  have zero : t.machine.reg 0 = w := by
    rw [machine, ← argument, ← plus_zero (s.machine.mem _), ← plus_zero (s.machine.reg 5 + 1)]
    rfl
  have five : t.machine.reg 5 = s.machine.reg 5 + 1 := by
    rw [machine]
    rfl
  have seven : t.machine.reg 7 = routine.place base .buf 16 := by
    have far : routine.place base .buf 16 = routine.address base .buf + BitVec.ofNat 16 15 +
      BitVec.ofNat 16 1 := by
      rw [BitVec.add_assoc, ← BitVec.ofNat_add, Routine.address, BitVec.add_assoc,
        ← BitVec.ofNat_add]
      rfl
    rw [machine, far]
    rfl
  have last : t.machine.last = w := by
    rw [← zero, machine]
    rfl
  rw [← machine, takes_zp, last] at pc'
  cases sign : w.msb with
  | false =>
    rw [sign, Bool.not_false, if_pos rfl] at pc'
    exact ⟨t, reaches, pc', by rw [zero, magnitude, sign, if_neg Bool.false_ne_true], seven, five,
      kept.mono (by decide)⟩
  | true =>
    rw [sign, Bool.not_true, if_neg Bool.false_ne_true] at pc'
    obtain ⟨u, reaches', pc'', machine', kept'⟩ :=
      Routine.piece os (Buffer base) (kept.mem ▸ loaded) pc'
      [not 0 0, addImm 0 0 1] (by decide) rfl
    refine ⟨u, reaches.trans reaches', pc''.trans (routine.place_eq (by decide)), ?_,
      (kept'.reg 7 (by decide)).trans seven, (kept'.reg 5 (by decide)).trans five,
      (kept.mono (by decide)).trans (kept'.mono (by decide))⟩
    rw [magnitude, sign, if_pos rfl, ← neg_word, ← zero, machine']
    rfl

variable (os) in
theorem shown_printed {j : Nat} {text : List Word} (loaded : routine.Loaded base s.machine.mem)
    (pc : s.pc = routine.place base .decstring 0)
    (next : s.machine.reg 7 = routine.place base .buf j)
    (shown : Shown base s.machine.mem j text) :
    ∃ t, Path os (Buffer base) s t ∧ Printed base s t 1 (text.map character) 0 := by
  obtain ⟨t, reaches, pc', machine, kept⟩ :=
    Routine.piece os (Buffer base) loaded pc [addImm 0 7 0] (by decide) rfl
  have zero : t.machine.reg 0 = routine.place base .buf j := by
    rw [← next, ← plus_zero (s.machine.reg 7), machine]
    rfl
  have string : stringAt t.machine.mem (t.machine.reg 0) = some text := by
    have short := shown.length
    have small : width = 17 := rfl
    rw [zero, kept.mem]
    exact stringFrom_mono shown.string (by omega)
  obtain ⟨u, reaches', printed⟩ :=
    printed_called os (kept.mem ▸ loaded) pc' .puts (text.map character) (by decide) (by decide)
      (by rw [Service.effect, string]; rfl)
  exact ⟨u, reaches.trans reaches', printed.before (kept.within _) (by decide)⟩

variable (os) in
theorem sign_printed {j : Nat} {text : List Word} (loaded : routine.Loaded base s.machine.mem)
    (pc : s.pc = routine.place base .lastdigit 8) (positive : 0 < j) (inside : j < width)
    (next : s.machine.reg 7 = routine.place base .buf j) (shown : Shown base s.machine.mem j text)
    (argument : s.machine.mem (s.machine.reg 5) = w) :
    ∃ t, Path os (Buffer base) s t ∧
      Printed base s t 1 ((if w.toInt < 0 then [byte '-'] else []) ++ text.map character) 0 := by
  obtain ⟨t, reaches, pc', machine, kept⟩ :=
    Routine.branch os (Buffer base) loaded pc [ldr 0 5 0, addImm 0 0 0]
    false true true .decstring (by decide) rfl
  have last : t.machine.last = w := by
    rw [← argument, ← plus_zero (s.machine.mem _), ← plus_zero (s.machine.reg 5), machine]
    rfl
  rw [← machine, takes_zp, last, BitVec.msb_eq_toInt] at pc'
  by_cases below : w.toInt < 0
  · rw [decide_eq_true below, Bool.not_true, if_neg Bool.false_ne_true] at pc'
    obtain ⟨i, rfl⟩ : ∃ i, j = i + 1 := ⟨j - 1, by omega⟩
    have lower : t.machine.reg 7 + BitVec.ofInt 16 (-1) = routine.place base .buf i := by
      have back : routine.place base .buf (i + 1) = routine.place base .buf i + 1 :=
        (next_address _ _).symm
      rw [kept.reg 7 (by decide), next, back, minus_one]
      exact BitVec.add_sub_cancel _ 1
    obtain ⟨u, reaches', pc'', machine', input, output⟩ :=
      Routine.store os (Buffer base) (kept.mem ▸ loaded) pc'
      [ld 0 .minus, addImm 7 7 (-1)] 0 7 0 (by decide) rfl ⟨i, by omega, (plus_zero _).trans lower⟩
    have seven : u.machine.reg 7 = routine.place base .buf i := by
      rw [← lower, machine']
      rfl
    have minus : s.machine.mem (routine.place base .minus 0) = 45 :=
      loaded _ _ (by decide) (by decide)
    have mem : u.machine.mem = fun a =>
      if a = routine.place base .buf i then 45 else s.machine.mem a := by
      rw [← minus, ← seven, ← plus_zero (u.machine.reg 7), ← kept.mem, machine']
      rfl
    have within : Within [0, 7] (Buffer base) t u := by
      refine ⟨fun k away => ?_, fun a away => ?_, input, output⟩
      · have written : ([ld 0 .minus, addImm 7 7 (-1), str 0 7 0] : List (Inst Label)).flatMap
          Inst.dest ⊆
            [0, 7] := by decide
        rw [machine']
        exact run_reg _ fun mem => away (written mem)
      · rw [mem, kept.mem]
        exact if_neg fun same => away ⟨i, by omega, same⟩
    have shown' : Shown base u.machine.mem i (45 :: text) := by
      refine ⟨by omega, by decide, ?_, ?_⟩
      · rw [mem]
        exact if_pos rfl
      · exact mem ▸ shown.write (Nat.lt_succ_self i)
    obtain ⟨v, reaches'', printed⟩ := shown_printed os (mem ▸ loaded_buf loaded (by omega))
      (pc''.trans (routine.place_eq (by decide))) seven shown'
    have sign : (45 :: text).map character = byte '-' :: text.map character := rfl
    rw [sign] at printed
    rw [if_pos below]
    exact ⟨v, (reaches.trans reaches').trans reaches'',
      (printed.before within (by decide)).before (kept.within _) (by decide)⟩
  · rw [decide_eq_false below, Bool.not_false, if_pos rfl] at pc'
    obtain ⟨u, reaches', printed⟩ := shown_printed os (kept.mem ▸ loaded) pc'
      ((kept.reg 7 (by decide)).trans next) (kept.mem ▸ shown)
    rw [if_neg below]
    exact ⟨u, reaches.trans reaches', printed.before (kept.within _) (by decide)⟩

theorem number_serves {b : Nat} (two : 2 ≤ b) (narrow : b ≤ 16)
    (loaded : routine.Loaded base s.machine.mem)
    (pc : s.pc = routine.place base .num 0) (divisor : s.machine.reg 2 = -BitVec.ofNat 16 b) :
    Serves os base s 1 (.number b) := by
  intro args text settled
  obtain ⟨held, rendered⟩ := settled.now
  cases args with
  | nil => cases rendered
  | cons w args =>
    cases rendered
    obtain ⟨t, reaches, pc', zero, seven, five, kept⟩ := number_ready os loaded pc held.1
    have loaded' : routine.Loaded base t.machine.mem := kept.mem ▸ loaded
    have fits : w.toInt.natAbs < b ^ 16 := by
      have := magnitude_small w
      have : 2 ^ 16 ≤ b ^ 16 := Nat.pow_le_pow_left two 16
      omega
    obtain ⟨u, j, reaches', pc'', positive, inside, next, loaded'', shown, within⟩ :=
      digits_stored os
      two narrow (magnitude_small w) fits (by decide) (by decide) loaded' pc' zero
      ((kept.reg 2 (by decide)).trans divisor) seven (shown_nil loaded')
    have argument : u.machine.mem (u.machine.reg 5) = w := by
      rw [within.reg 5 (by decide), five]
      exact (settled _ fun a away => (within.mem a away).trans (by rw [kept.mem])).1.1
    obtain ⟨v, reaches''', printed⟩ :=
      sign_printed os loaded'' pc'' positive inside next shown argument
    have spelled : ((Nat.toDigits b w.toInt.natAbs).map digitWord ++ []).map character =
        (Nat.toDigits b w.toInt.natAbs).map byte := by
      rw [List.append_nil, List.map_map]
      exact List.map_congr_left fun c _ => digit_character c
    rw [spelled] at printed
    refine ⟨v, (reaches.trans reaches').trans reaches''', ?_⟩
    exact (printed.before within (by decide)).taking (kept.within _) five (by decide)

end

/-! The choice of a conversion. -/

section
variable {os : Os} {base : Word} {s : State} {c : Word}

variable (os) in
theorem compared (start constant other : Label) (n : Nat) (r : Fin 8) (k : Word)
    (loaded : routine.Loaded base s.machine.mem) (pc : s.pc = routine.place base start n)
    (there : ([addImm 2 0 0, ld r constant, add 2 2 r] ++ [br true false true other]).map .inst <+:
      (cells routine.items).drop (index routine.items start + n))
    (value : image routine.items (index routine.items constant) = some (-k))
    (fixed : routine.scratch (index routine.items constant) = false) (away : r ≠ 2) :
    ∃ t, Path os (Buffer base) s t ∧
      t.pc = (if s.machine.reg 0 = k then routine.place base start (n + 4)
        else routine.place base other 0) ∧
      Kept [2, r] s t := by
  obtain ⟨t, reaches, pc', machine, kept⟩ :=
    Routine.branch os (Buffer base) loaded pc _ true false true other there rfl
  have read : s.machine.mem (routine.address base constant) = -k := loaded _ _ value fixed
  have last : (run (routine.address base) [addImm 2 0 0, ld r constant, add 2 2 r] s.machine).last =
      s.machine.reg 0 - k := by
    rw [BitVec.sub_eq_add_neg, ← read, ← plus_zero (s.machine.reg 0)]
    simp only [run_cons, run_nil, act, Machine.set_last, Machine.set_reg, Machine.set_mem,
      if_neg away.symm, if_true]
  refine ⟨t, reaches, ?_, kept.mono fun i mem => ?_⟩
  · rw [pc', takes_np, last]
    by_cases same : s.machine.reg 0 = k
    · simp [same]
    · have differ : ¬ s.machine.reg 0 - k = 0#16 :=
        fun zero => same (BitVec.sub_eq_iff_eq_add.mp zero |>.trans (BitVec.zero_add k))
      rw [if_neg same, decide_eq_false differ]
      rfl
  · have written : i ∈ [2, r, 2] := mem
    simp only [List.mem_cons, List.not_mem_nil, or_false] at written ⊢
    rcases written with two | same | two
    · exact .inl two
    · exact .inr same
    · exact .inl two

theorem chosen {start : Label} {n : Nat} (r : Fin 8) (constant other : Label) (k : Word)
    {hit miss : Piece}
    (loaded : routine.Loaded base s.machine.mem) (pc : s.pc = routine.place base start n)
    (there : ([addImm 2 0 0, ld r constant, add 2 2 r] ++ [br true false true other]).map .inst <+:
      (cells routine.items).drop (index routine.items start + n))
    (value : image routine.items (index routine.items constant) = some (-k))
    (fixed : routine.scratch (index routine.items constant) = false) (away : r ∉ [0, 2, 4, 5, 6])
    (character : s.machine.reg 0 = c)
    (hits : ∀ t, routine.Loaded base t.machine.mem → t.pc = routine.place base start (n + 4) →
      Serves os base t 1 hit)
    (misses : ∀ t, routine.Loaded base t.machine.mem → t.pc = routine.place base other 0 →
      t.machine.reg 0 = c → Serves os base t 1 miss) :
    Serves os base s 1 (if c = k then hit else miss) := by
  obtain ⟨t, reaches, pc', kept⟩ :=
    compared os start constant other n r k loaded pc there value fixed
    fun same => away (by simp [same])
  have apart : ∀ i ∈ [4, 5, 6], i ∉ [2, r] := by
    intro i mem inside
    rcases List.mem_cons.mp inside with rfl | same
    · revert mem
      decide
    · exact away (List.mem_cons_of_mem _
        (List.mem_cons_of_mem _ (List.mem_singleton.mp same ▸ mem)))
  have zero : 0 ∉ [2, r] := fun inside => by
    rcases List.mem_cons.mp inside with two | same
    · cases two
    · exact away (List.mem_singleton.mp same ▸ List.mem_cons_self)
  have loaded' : routine.Loaded base t.machine.mem := kept.mem ▸ loaded
  rw [character] at pc'
  split
  · rename_i same
    exact (hits t loaded' (pc'.trans (if_pos same))).before reaches kept apart
  · rename_i differ
    exact (misses t loaded' (pc'.trans (if_neg differ)) ((kept.reg 0 zero).trans character)).before
      reaches kept apart

theorem divisor_set (b : Nat) (t : State) :
    (run (routine.address base) [andImm 2 2 0, addImm 2 2 (-b)] t.machine).reg 2 =
      -BitVec.ofNat 16 b := by
  have cleared : t.machine.reg 2 &&& BitVec.ofInt 16 0 = 0 := BitVec.and_zero
  have value : BitVec.ofInt 16 (-(b : Int)) = -BitVec.ofNat 16 b := by
    rw [BitVec.ofInt_neg, BitVec.ofInt_natCast]
  rw [← value, ← BitVec.zero_add (BitVec.ofInt 16 _), ← BitVec.ofNat_eq_ofNat, ← cleared]
  rfl

theorem base_serves {start : Label} {n b : Nat} (two : 2 ≤ b) (narrow : b ≤ 16)
    (loaded : routine.Loaded base s.machine.mem) (pc : s.pc = routine.place base start n)
    (there : ([andImm 2 2 0, addImm 2 2 (-b)] ++ [br true true true Label.num]).map .inst <+:
      (cells routine.items).drop (index routine.items start + n)) : Serves os base s 1
        (.number b) := by
  obtain ⟨t, reaches, pc', machine, kept⟩ :=
    Routine.branch os (Buffer base) loaded pc _ true true true .num there rfl
  rw [takes_always, if_pos rfl] at pc'
  exact (number_serves two narrow (kept.mem ▸ loaded) pc' (machine ▸ divisor_set b s)).before
    reaches kept
    (by simp [Inst.dest])

theorem checkbin_serves (loaded : routine.Loaded base s.machine.mem)
    (pc : s.pc = routine.place base .checkbin 0)
    (character : s.machine.reg 0 = c) :
      Serves os base s 1 (if c = 98 then .number 2 else .literal c) := by
  refine chosen 7 .b .char 98 loaded pc (by decide) (by decide)
    (by decide) (by decide) character (fun t loaded' pc' => ?_) fun t loaded' pc' same =>
      literal_serves loaded' pc' same
  obtain ⟨u, reaches, pc'', machine, kept⟩ :=
    Routine.piece os (Buffer base) loaded' pc' [andImm 2 2 0, addImm 2 2 (-2)]
    (by decide) rfl
  exact (number_serves (by decide) (by decide) (kept.mem ▸ loaded')
    (pc''.trans (routine.place_eq (by decide)))
    (machine ▸ divisor_set 2 t)).before reaches kept (by decide)

theorem checkoct_serves (loaded : routine.Loaded base s.machine.mem)
    (pc : s.pc = routine.place base .checkoct 0)
    (character : s.machine.reg 0 = c) :
    Serves os base s 1 (if c = 111 then .number 8 else if c = 98 then .number 2 else .literal c) :=
  chosen 7 .o .checkbin 111 loaded pc (by decide) (by decide)
    (by decide) (by decide) character
    (fun t loaded' pc' => base_serves (by decide) (by decide) loaded' pc' (by decide))
    fun t loaded' pc' same => checkbin_serves loaded' pc' same

theorem checkhex_serves (loaded : routine.Loaded base s.machine.mem)
    (pc : s.pc = routine.place base .checkhex 0)
    (character : s.machine.reg 0 = c) :
    Serves os base s 1 (if c = 120 then .number 16
      else if c = 111 then .number 8 else if c = 98 then .number 2 else .literal c) :=
  chosen 7 .x .checkoct 120 loaded pc (by decide) (by decide)
    (by decide) (by decide) character
    (fun t loaded' pc' => base_serves (by decide) (by decide) loaded' pc' (by decide))
    fun t loaded' pc' same => checkoct_serves loaded' pc' same

theorem checkdec_serves (loaded : routine.Loaded base s.machine.mem)
    (pc : s.pc = routine.place base .checkdec 0)
    (character : s.machine.reg 0 = c) :
    Serves os base s 1 (if c = 100 then .number 10 else if c = 120 then .number 16
      else if c = 111 then .number 8 else if c = 98 then .number 2 else .literal c) :=
  chosen 7 .d .checkhex 100 loaded pc (by decide) (by decide)
    (by decide) (by decide) character
    (fun t loaded' pc' => base_serves (by decide) (by decide) loaded' pc' (by decide))
    fun t loaded' pc' same => checkhex_serves loaded' pc' same

theorem conversion_serves (loaded : routine.Loaded base s.machine.mem)
    (pc : s.pc = routine.place base .checkchar 0)
    (character : s.machine.reg 0 = c) : Serves os base s 1 (conversion c) := by
  refine chosen 3 .c .checkstr 99 loaded pc (by decide)
    (by decide) (by decide) (by decide) character (fun t loaded' pc' => char_serves loaded' pc')
    fun t loaded' pc' same => ?_
  exact chosen 7 .s .checkdec 115 loaded' pc' (by decide)
    (by decide) (by decide) (by decide) same
    (fun u loaded'' pc'' => string_serves loaded'' pc'')
    fun u loaded'' pc'' same' => checkdec_serves loaded'' pc'' same'

end

end LC3Tools.Stdio.Printf
