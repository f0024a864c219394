import LC3Tools.Stdio.Conversions

/-! The loop of `printf` over its format, and the whole routine. -/
namespace LC3Tools.Stdio.Printf
open Emit StateTransition Inst

set_option maxRecDepth 8000

/-! The loop over the format. -/

section
variable {os : Os} {base : Word} {s t u : State} {c : Word}

theorem Printed.behind {rs : List (Fin 8)} {text : List Byte} {used more taken : Nat}
    (kept : Kept rs s t)
    (four : t.machine.reg 4 = s.machine.reg 4 + BitVec.ofNat 16 more)
    (printed : Printed base t u used text taken)
    (away : ∀ i ∈ [5, 6], i ∉ rs) : Printed base s u (more + used) text taken where
  pc := printed.pc
  loaded := printed.loaded
  format := by rw [printed.format, four, BitVec.ofNat_add, BitVec.add_assoc]
  argument := printed.argument.trans (congrArg (· + _) (kept.reg 5 (away 5 (by decide))))
  stack := printed.stack.trans (kept.reg 6 (away 6 (by decide)))
  input := printed.input.trans kept.input
  output := printed.output.trans (congrArg (· ++ text) kept.output)
  mem := fun a outside => (printed.mem a outside).trans (by rw [kept.mem])

variable (os) in
theorem character_read (loaded : routine.Loaded base s.machine.mem)
    (pc : s.pc = routine.place base .loop 0)
    (there : s.machine.mem (s.machine.reg 4) = c) :
    ∃ t, Path os (Buffer base) s t ∧
      t.pc = (if c = 0 then routine.place base .done 0 else routine.place base .loop 3) ∧
      t.machine.reg 0 = c ∧ Kept [0] s t := by
  obtain ⟨t, reaches, pc', machine, kept⟩ :=
    Routine.branch os (Buffer base) loaded pc [ldr 0 4 0, addImm 0 0 0]
    false true false .done (by decide) rfl
  have zero : t.machine.reg 0 = c := by
    rw [← there, ← plus_zero (s.machine.mem _), ← plus_zero (s.machine.reg 4), machine]
    rfl
  have last : t.machine.last = c := by
    rw [← zero, machine]
    rfl
  rw [← machine, takes_z, last] at pc'
  refine ⟨t, reaches, ?_, zero, kept.mono (by decide)⟩
  simpa using pc'

variable (os) in
theorem format_fetched {start : Label} {n : Nat} (loaded : routine.Loaded base s.machine.mem)
    (pc : s.pc = routine.place base start n)
    (there : ([addImm 4 4 1, ldr 0 4 0] : List (Inst Label)).map .inst <+:
      (cells routine.items).drop (index routine.items start + n)) :
    ∃ t, Path os (Buffer base) s t ∧ t.pc = routine.place base start (n + 2) ∧
      t.machine.reg 4 = s.machine.reg 4 + 1 ∧
        t.machine.reg 0 = s.machine.mem (s.machine.reg 4 + 1) ∧
      Kept [0, 4] s t := by
  obtain ⟨t, reaches, pc', machine, kept⟩ := Routine.piece os (Buffer base) loaded pc _ there rfl
  refine ⟨t, reaches, pc', ?_, ?_, kept.mono (by decide)⟩
  · rw [machine]
    rfl
  · rw [machine, ← plus_zero (s.machine.reg 4 + 1)]
    rfl

theorem literal_printed (loaded : routine.Loaded base s.machine.mem)
    (pc : s.pc = routine.place base .loop 0)
    (there : s.machine.mem (s.machine.reg 4) = c) (nonzero : c ≠ 0) (plain : c ≠ 37) :
    Serves os base s 1 (.literal c) := by
  obtain ⟨t, reaches, pc', zero, kept⟩ := character_read os loaded pc there
  rw [if_neg nonzero] at pc'
  obtain ⟨u, reaches', pc'', kept'⟩ :=
    compared os .loop .percent .char 3 1 37 (kept.mem ▸ loaded) pc'
    (by decide) (by decide) (by decide) (by decide)
  rw [zero, if_neg plain] at pc''
  have both : Kept [0, 1, 2] s u := (kept.mono (by decide)).trans (kept'.mono (by decide))
  exact (literal_serves (both.mem ▸ loaded) pc'' ((kept'.reg 0 (by decide)).trans zero)).before
    (reaches.trans reaches') both (by decide)

variable (os) in
theorem percent_passed (loaded : routine.Loaded base s.machine.mem)
    (pc : s.pc = routine.place base .loop 0)
    (there : s.machine.mem (s.machine.reg 4) = 37)
    (next : s.machine.mem (s.machine.reg 4 + 1) = c) :
    ∃ t, Path os (Buffer base) s t ∧
      t.pc = (if c = 104 then routine.place base .loop 13 else routine.place base .checkchar 0) ∧
      t.machine.reg 4 = s.machine.reg 4 + 1 ∧ t.machine.reg 0 = c ∧ Kept [0, 1, 2, 3, 4] s t := by
  obtain ⟨t₁, reaches₁, pc₁, zero₁, kept₁⟩ := character_read os loaded pc there
  rw [if_neg (by decide)] at pc₁
  obtain ⟨t₂, reaches₂, pc₂, kept₂⟩ :=
    compared os .loop .percent .char 3 1 37 (kept₁.mem ▸ loaded) pc₁
    (by decide) (by decide) (by decide) (by decide)
  rw [zero₁, if_pos rfl] at pc₂
  have both : Kept [0, 1, 2, 3, 4] s t₂ := (kept₁.mono (by decide)).trans (kept₂.mono (by decide))
  have same : t₂.machine.reg 4 = s.machine.reg 4 :=
    (kept₂.reg 4 (by decide)).trans (kept₁.reg 4 (by decide))
  obtain ⟨t₃, reaches₃, pc₃, four₃, zero₃, kept₃⟩ :=
    format_fetched os (both.mem ▸ loaded) pc₂ (by decide)
  have kept₃ : Kept [0, 1, 2, 3, 4] s t₃ := both.trans (kept₃.mono (by decide))
  rw [same, both.mem, next] at zero₃
  rw [same] at four₃
  obtain ⟨t, reaches, pc', kept⟩ := compared os .loop .h .checkchar 9 3 104 (kept₃.mem ▸ loaded) pc₃
    (by decide) (by decide) (by decide) (by decide)
  rw [zero₃] at pc'
  exact ⟨t, ((reaches₁.trans reaches₂).trans reaches₃).trans reaches, pc',
    (kept.reg 4 (by decide)).trans four₃,
    (kept.reg 0 (by decide)).trans zero₃, kept₃.trans (kept.mono (by decide))⟩

theorem Serves.behind {rs : List (Fin 8)} {used more : Nat} {piece : Piece}
    (serves : Serves os base t used piece)
    (reaches : Path os (Buffer base) s t) (kept : Kept rs s t)
    (four : t.machine.reg 4 = s.machine.reg 4 + BitVec.ofNat 16 more)
    (away : ∀ i ∈ [5, 6], i ∉ rs) :
    Serves os base s (more + used) piece := by
  intro args text settled
  obtain ⟨u, reaches', printed⟩ := serves args text (by
    rw [kept.mem, kept.reg 5 (away 5 (by decide))]
    exact settled)
  exact ⟨u, reaches.trans reaches', printed.behind kept four away⟩

theorem percent_serves (loaded : routine.Loaded base s.machine.mem)
    (pc : s.pc = routine.place base .loop 0)
    (there : s.machine.mem (s.machine.reg 4) = 37) (next : s.machine.mem (s.machine.reg 4 + 1) = c)
    (plain : c ≠ 104) : Serves os base s 2 (conversion c) := by
  obtain ⟨t, reaches, pc', four, zero, kept⟩ := percent_passed os loaded pc there next
  rw [if_neg plain] at pc'
  exact (conversion_serves (kept.mem ▸ loaded) pc' zero).behind reaches kept four (by decide)

theorem percent_h_serves (loaded : routine.Loaded base s.machine.mem)
    (pc : s.pc = routine.place base .loop 0)
    (there : s.machine.mem (s.machine.reg 4) = 37)
    (next : s.machine.mem (s.machine.reg 4 + 1) = 104)
    (last : s.machine.mem (s.machine.reg 4 + 1 + 1) = c) : Serves os base s 3 (conversion c) := by
  obtain ⟨t, reaches, pc', four, -, kept⟩ := percent_passed os loaded pc there next
  rw [if_pos rfl] at pc'
  obtain ⟨u, reaches', pc'', four', zero, kept'⟩ :=
    format_fetched os (kept.mem ▸ loaded) pc' (by decide)
  rw [four, kept.mem, last] at zero
  have both : Kept [0, 1, 2, 3, 4] s u := kept.trans (kept'.mono (by decide))
  have far : u.machine.reg 4 = s.machine.reg 4 + BitVec.ofNat 16 2 := by
    rw [four', four, BitVec.add_assoc]
    rfl
  exact (conversion_serves (both.mem ▸ loaded)
    (pc''.trans (routine.place_eq (by decide))) zero).behind
    (reaches.trans reaches') both far (by decide)

theorem Held.drop {mem : Word → Word} {a : Word} {args : List Word} (held : Held mem a args)
    (k : Nat) :
    Held mem (a + BitVec.ofNat 16 k) (args.drop k) := by
  induction k generalizing a args with
  | zero =>
    rw [BitVec.add_zero]
    exact held
  | succ k ih =>
    cases args with
    | nil => trivial
    | cons w args =>
      have left := ih held.2
      rw [BitVec.add_assoc] at left
      rw [Nat.add_comm, BitVec.ofNat_add, Nat.add_comm]
      exact left

/-- From here the rest of a format is printed, whatever the arguments are. -/
def Prints (os : Os) (base : Word) (s : State) (format : List Word) (pieces : List Piece) : Prop :=
  ∀ args texts, Settled (Buffer base) s.machine.mem (fun mem =>
      (∃ n, stringFrom mem n (s.machine.reg 4) = some format) ∧
        Held mem (s.machine.reg 5 + 1) args ∧
        render mem pieces args = some texts) →
    ∃ t, Path os (Buffer base) s t ∧ t.pc = routine.place base .done 0 ∧
      routine.Loaded base t.machine.mem ∧
      t.machine.reg 6 = s.machine.reg 6 ∧ t.input = s.input ∧ t.output = s.output ++ texts.flatten ∧
      ∀ a, ¬ Buffer base a → t.machine.mem a = s.machine.mem a

theorem render_cons {mem : Word → Word} {piece : Piece} {pieces : List Piece} {args : List Word}
    {texts : List (List Byte)} : render mem (piece :: pieces) args = some texts ↔ ∃ text more,
      piece.render mem args = some text ∧ render mem pieces (args.drop piece.takes) = some more ∧
        texts = text :: more := by
  simp only [render, Option.bind_eq_bind, Option.bind_eq_some_iff, Option.some.injEq]
  constructor
  · rintro ⟨text, first, more, rest, same⟩
    exact ⟨text, more, first, rest, same.symm⟩
  · rintro ⟨text, more, first, rest, same⟩
    exact ⟨text, first, more, rest, same.symm⟩

theorem prints_cons (front : List Word) {rest : List Word} {piece : Piece} {pieces : List Piece}
    (serves : (∃ n, stringFrom s.machine.mem n (s.machine.reg 4) = some (front ++ rest)) →
      Serves os base s front.length piece)
    (later : ∀ t, routine.Loaded base t.machine.mem → t.pc = routine.place base .loop 0 →
      Prints os base t rest pieces) : Prints os base s (front ++ rest) (piece :: pieces) := by
  intro args texts settled
  obtain ⟨string, -, rendered⟩ := settled.now
  obtain ⟨text, more, -, -, rfl⟩ := render_cons.mp rendered
  have parts (mem : Word → Word) (given : render mem (piece :: pieces) args = some (text :: more)) :
      piece.render mem args = some text ∧
        render mem pieces (args.drop piece.takes) = some more := by
    obtain ⟨text', more', first, rest, same⟩ := render_cons.mp given
    cases same
    exact ⟨first, rest⟩
  obtain ⟨t, reaches, printed⟩ := serves string args text fun mem same =>
    ⟨(settled mem same).2.1, (parts mem (settled mem same).2.2).1⟩
  obtain ⟨u, reaches', pc, loaded, stack, input, output, same⟩ := later t printed.loaded printed.pc
    (args.drop piece.takes) more fun mem same => by
      obtain ⟨⟨n, found⟩, held, given⟩ := settled.later printed.mem mem same
      rw [printed.format, printed.argument, add_right_comm]
      exact ⟨stringFrom_drop front found, held.drop _, (parts mem given).2⟩
  refine ⟨u, reaches.trans reaches', pc, loaded, stack.trans printed.stack,
    input.trans printed.input, ?_,
    fun a away => (same a away).trans (printed.mem a away)⟩
  rw [output, printed.output, List.flatten_cons, List.append_assoc]

theorem loop_prints {format : List Word} {pieces : List Piece} (parsed : parse format = some pieces)
    (loaded : routine.Loaded base s.machine.mem) (pc : s.pc = routine.place base .loop 0) :
    Prints os base s format pieces := by
  fun_induction parse format generalizing s pieces with
  | case1 =>
    intro args texts settled
    cases parsed
    obtain ⟨⟨n, found⟩, -, rendered⟩ := settled.now
    cases rendered
    obtain ⟨t, reaches, pc', -, kept⟩ := character_read os loaded pc (stringFrom_nil found)
    refine ⟨t, reaches, pc'.trans (if_pos rfl), kept.mem ▸ loaded, kept.reg 6 (by decide),
      kept.input, ?_,
      fun a _ => by rw [kept.mem]⟩
    rw [kept.output, List.flatten_nil, List.append_nil]
  | case2 c rest plain ih =>
    obtain ⟨pieces, left, rfl⟩ := Option.map_eq_some_iff.mp parsed
    refine prints_cons [c] (fun ⟨n, found⟩ => ?_) fun t loaded' pc' => ih left loaded' pc'
    have first := stringFrom_cons found
    exact literal_printed loaded pc first.1 first.2 plain
  | case3 sign percent => cases parsed
  | case4 sign percent c rest plain ih =>
    obtain ⟨pieces, left, rfl⟩ := Option.map_eq_some_iff.mp parsed
    refine prints_cons [sign, c] (fun ⟨n, found⟩ => ?_) fun t loaded' pc' => ih left loaded' pc'
    obtain ⟨m, behind⟩ := stringFrom_drop [sign] found
    exact percent_serves loaded pc ((stringFrom_cons found).1.trans (not_not.mp percent))
      (stringFrom_cons behind).1 plain
  | case5 sign percent h letter => cases parsed
  | case6 sign percent h letter c rest ih =>
    obtain ⟨pieces, left, rfl⟩ := Option.map_eq_some_iff.mp parsed
    refine prints_cons [sign, h, c] (fun ⟨n, found⟩ => ?_) fun t loaded' pc' => ih left loaded' pc'
    obtain ⟨m, behind⟩ := stringFrom_drop [sign] found
    obtain ⟨m', last⟩ := stringFrom_drop [h] behind
    exact percent_h_serves loaded pc ((stringFrom_cons found).1.trans (not_not.mp percent))
      ((stringFrom_cons behind).1.trans (not_not.mp letter)) (stringFrom_cons last).1

end

/-! The routine. -/

theorem parse_isSome {format : List Word} (sign : ¬ [37] <:+ format)
    (letter : ¬ [37, 104] <:+ format) :
    (parse format).isSome := by
  have shorter (front : List Word) {rest text : List Word} (away : ¬ text <:+ front ++ rest) :
    ¬ text <:+ rest :=
    fun suffix => away (suffix.trans (List.suffix_append front rest))
  fun_induction parse format with
  | case1 => rfl
  | case2 c rest plain ih =>
    rw [Option.isSome_map]
    exact ih (shorter [c] sign) (shorter [c] letter)
  | case3 c percent =>
    cases not_not.mp percent
    exact absurd (List.suffix_refl _) sign
  | case4 s percent c rest plain ih =>
    rw [Option.isSome_map]
    exact ih (shorter [s, c] sign) (shorter [s, c] letter)
  | case5 s percent h same =>
    cases not_not.mp percent
    cases not_not.mp same
    exact absurd (List.suffix_refl _) letter
  | case6 s percent h same c rest ih =>
    rw [Option.isSome_map]
    exact ih (shorter [s, h, c] sign) (shorter [s, h, c] letter)

/-- The words that a call writes. -/
def Written (base sp a : Word) : Prop := Buffer base a ∨ a ∈ saves sp

instance (base sp a : Word) : Decidable (Written base sp a) := by
  unfold Written Buffer
  infer_instance

/-- The routine prints what every piece of the format stands for and comes back to its caller. What
the format, the arguments and the strings are must not depend on the words that the call writes. -/
theorem printf_renders (os : Os) {base : Word} {s : State} {format args : List Word}
    {pieces : List Piece}
    {texts : List (List Byte)} (loaded : routine.Loaded base s.machine.mem)
    (pc : s.pc = routine.place base .printf 0) (room : Room routine base (s.machine.reg 6))
    (parsed : parse format = some pieces)
    (given : Settled (Written base (s.machine.reg 6)) s.machine.mem fun mem =>
      stringAt mem (s.machine.mem (s.machine.reg 6)) = some format ∧
        Held mem (s.machine.reg 6 + 1) args ∧
        render mem pieces args = some texts) :
    ∃ t, Path os (Written base (s.machine.reg 6)) s t ∧ t.pc = s.machine.reg 7 ∧
      t.output = s.output ++ texts.flatten ∧
      t.input = s.input ∧ t.machine.reg 4 = s.machine.reg 4 ∧ t.machine.reg 5 = s.machine.reg 5 ∧
      t.machine.reg 6 = s.machine.reg 6 - 1 ∧ routine.Loaded base t.machine.mem := by
  obtain ⟨t₁, reaches₁, pc₁, loaded₁, mem₁, four₁, five₁, six₁, input₁, output₁⟩ :=
    entered os loaded pc (by decide +kernel) rfl room
  have four : t₁.machine.reg 4 = s.machine.mem (s.machine.reg 6) := by
    rw [four₁, mem₁, saved_outside (stack_top _)]
  have settled : Settled (Buffer base) t₁.machine.mem fun mem =>
      (∃ n, stringFrom mem n (t₁.machine.reg 4) = some format) ∧
        Held mem (t₁.machine.reg 5 + 1) args ∧
        render mem pieces args = some texts := by
    intro mem same
    obtain ⟨string, held, rendered⟩ := given mem fun a away => by
      rw [Written, not_or] at away
      rw [same a away.1, mem₁, saved_outside away.2]
    rw [four, five₁]
    exact ⟨⟨_, string⟩, held, rendered⟩
  have prints : Prints os base t₁ format pieces :=
    loop_prints parsed loaded₁ (pc₁.trans (routine.place_eq (by decide +kernel)))
  obtain ⟨t₂, reaches₂, pc₂, loaded₂, six₂, input₂, output₂, mem₂⟩ := prints args texts settled
  have kept {a : Word} (inside : a ∈ saves (s.machine.reg 6)) :
      t₂.machine.mem a = saved s (s.machine.reg 6) a := by
    rw [mem₂ a fun ⟨j, less, same⟩ => ?_, mem₁]
    have := buf_inside
    exact room (index routine.items .buf + j) (by omega)
      (show routine.place base .buf j ∈ _ from same ▸ inside)
  obtain ⟨t₃, reaches₃, pc₃, mem₃, four₃, five₃, six₃, input₃, output₃⟩ :=
    left os (Buffer base) loaded₂ pc₂ (by decide +kernel)
    (six₂.trans six₁) (kept (by simp [saves])) (kept (by simp [saves])) (kept (by simp [saves]))
  have path : Path os (Written base (s.machine.reg 6)) s t₃ :=
    (reaches₁.mono fun _ => .inr).trans ((reaches₂.trans reaches₃).mono fun _ => .inl)
  refine ⟨t₃, path, pc₃.trans (saved_inside s _).2.2, ?_, ?_, four₃.trans (saved_inside s _).1,
    five₃.trans (saved_inside s _).2.1, six₃, mem₃ ▸ loaded₂⟩
  · rw [output₃, output₂, output₁]
  · rw [input₃, input₂, input₁]

/-- A call with the format `%hd` and one argument. -/
def callState (w : Word) : State where
  machine := {
    reg := fun i => if i = 6 then 0xf000 else if i = 7 then 0x4000 else 0
    mem := routine.load 0x3000 fun a => if a = 0xf000 then 0x5000 else if a = 0xf001 then w
      else if a = 0x5000 then 37 else if a = 0x5001 then 104 else if a = 0x5002 then 100 else 0
    last := 0 }
  pc := routine.place 0x3000 .printf 0
  input := []
  output := []

def quiet : Os := ⟨fun _ => 0, fun _ => 0, fun _ => 0⟩

theorem printf_renders_lowest : ∃ t, Path quiet (Written 0x3000 0xf000) (callState 0x8000) t ∧
    t.pc = 0x4000 ∧
    t.output = bytes "-32768" := by
  have loaded : routine.Loaded 0x3000 (callState 0x8000).machine.mem :=
    Routine.load_loaded (Nat.le_of_lt size_small)
  have parsed : parse [37, 104, 100] = some [.number 10] := by decide
  have given : Settled (Written 0x3000 ((callState 0x8000).machine.reg 6))
    (callState 0x8000).machine.mem fun mem =>
      stringAt mem ((callState 0x8000).machine.mem ((callState 0x8000).machine.reg 6)) = some
        [37, 104, 100] ∧
        Held mem ((callState 0x8000).machine.reg 6 + 1) [0x8000] ∧
        render mem [.number 10] [0x8000] = some [bytes "-32768"] := by
    intro mem same
    have argument : mem 0xf001 = 0x8000 :=
      (same 0xf001 (by decide +kernel)).trans (by decide +kernel)
    have percent : mem 0x5000 = 37 := (same 0x5000 (by decide +kernel)).trans (by decide +kernel)
    have letter : mem 0x5001 = 104 := (same 0x5001 (by decide +kernel)).trans (by decide +kernel)
    have conversion : mem 0x5002 = 100 :=
      (same 0x5002 (by decide +kernel)).trans (by decide +kernel)
    have final : mem 0x5003 = 0 := (same 0x5003 (by decide +kernel)).trans (by decide +kernel)
    have pointer : (callState 0x8000).machine.mem ((callState 0x8000).machine.reg 6) =
      0x5000 := by decide +kernel
    have lowest : numeral 10 0x8000 = bytes "-32768" := by decide +kernel
    refine ⟨?_, ⟨argument, trivial⟩, render_cons.mpr ⟨_, [], congrArg some lowest, rfl, rfl⟩⟩
    have text : stringFrom mem 4 0x5000 = some [37, 104, 100] :=
      stringFrom_next percent (by decide) (stringFrom_next letter (by decide)
        (stringFrom_next conversion (by decide) (stringFrom_end 0 final)))
    rw [pointer]
    exact stringFrom_mono text (by decide)
  obtain ⟨t, reaches, pc, output, -⟩ :=
    printf_renders quiet loaded rfl (by decide +kernel) parsed given
  exact ⟨t, reaches, pc, output⟩

end LC3Tools.Stdio.Printf
