import LC3Tools.Stdio.ScanfSum

/-! A call of `scanf` with the format `%d`. -/
namespace LC3Tools.Stdio.Scanf
open Emit StateTransition Inst

set_option maxRecDepth 8000

/-- The words of the stack that a call writes. -/
def stack (sp : Word) : List Word := saves sp ++ [sp - 5]

def Written (base sp target a : Word) : Prop := Buffer base a ∨ a ∈ stack sp ∨ a = target

instance (base sp target a : Word) : Decidable (Written base sp target a) := by
  unfold Written Buffer
  infer_instance

section
variable {os : Os} {base sp fmt target : Word} {s : State} {c k : Word}

variable (os) in
theorem compared (start constant other : Label) (n : Nat)
    (loaded : routine.Loaded base s.machine.mem)
    (pc : s.pc = routine.place base start n)
    (there : ([ld 1 constant, addImm 0 2 0, add 0 0 1] ++ [br true false true other]).map .inst <+:
      (cells routine.items).drop (index routine.items start + n))
    (value : image routine.items (index routine.items constant) = some (-k))
    (fixed : routine.scratch (index routine.items constant) = false)
    (character : s.machine.reg 2 = c) :
    ∃ t, Path os (Buffer base) s t ∧
      t.pc = (if c = k then routine.place base start (n + 4) else routine.place base other 0) ∧
      Kept [0, 1] s t := by
  obtain ⟨t, path, pc', machine, kept⟩ :=
    Routine.branch os (Buffer base) loaded pc _ true false true other there rfl
  have read : s.machine.mem (routine.address base constant) = -k := loaded _ _ value fixed
  have last : t.machine.last = c - k := by
    rw [BitVec.sub_eq_add_neg, ← read, ← character, ← plus_zero (s.machine.reg 2), machine]
    rfl
  have equal : t.machine.last = 0#16 ↔ c = k := by
    rw [last, BitVec.sub_eq_iff_eq_add, BitVec.zero_add]
  rw [← machine, takes_np] at pc'
  refine ⟨t, path, ?_, kept.mono (by simp [Inst.dest])⟩
  rw [pc']
  by_cases same : c = k
  · rw [decide_eq_true (equal.mpr same), if_pos same]
    rfl
  · rw [decide_eq_false fun zero => same (equal.mp zero), if_neg same]
    rfl

variable (os) in
theorem format_read (loaded : routine.Loaded base s.machine.mem)
    (pc : s.pc = routine.place base .loop 0)
    (there : s.machine.mem (s.machine.reg 4) = c) :
    ∃ t, Path os (Buffer base) s t ∧
      t.pc = (if c = 0 then routine.place base .done 0 else routine.place base .loop 3) ∧
      t.machine.reg 2 = c ∧ Kept [2] s t := by
  obtain ⟨t, path, pc', machine, kept⟩ :=
    Routine.branch os (Buffer base) loaded pc [ldr 2 4 0, addImm 2 2 0]
    false true false .done (by decide) rfl
  have two : t.machine.reg 2 = c := by
    rw [← there, ← plus_zero (s.machine.mem _), ← plus_zero (s.machine.reg 4), machine]
    rfl
  have last : t.machine.last = c := by
    rw [← two, machine]
    rfl
  rw [← machine, takes_z, last] at pc'
  refine ⟨t, path, ?_, two, kept.mono (by decide)⟩
  simpa using pc'

variable (os) in
theorem conversion_begun (loaded : routine.Loaded base s.machine.mem)
    (pc : s.pc = routine.place base .loop 0)
    (percent : s.machine.mem (s.machine.reg 4) = 37)
    (letter : s.machine.mem (s.machine.reg 4 + 1) = 100)
    (room : ∀ k < (cells routine.items).length, base + BitVec.ofNat 16 k ≠ s.machine.reg 6 - 1) :
    ∃ t, Path os (fun a => Buffer base a ∨ a = s.machine.reg 6 - 1) s t ∧ Scanning base [] t ∧
      t.machine.reg 5 = s.machine.reg 5 ∧ t.machine.reg 6 = s.machine.reg 6 - 1 ∧
      t.machine.mem = (fun a =>
        if a = s.machine.reg 6 - 1 then s.machine.reg 4 + 1 else s.machine.mem a) ∧
      t.input = s.input := by
  obtain ⟨t₁, path₁, pc₁, two₁, kept₁⟩ := format_read os loaded pc percent
  rw [if_neg (by decide)] at pc₁
  obtain ⟨t₂, path₂, pc₂, kept₂⟩ :=
    compared os .loop .percent .matchchar 3 (k := 37) (kept₁.mem ▸ loaded) pc₁
    (by decide) (by decide) (by decide) two₁
  rw [if_pos rfl] at pc₂
  have both : Kept [0, 1, 2, 4] s t₂ := (kept₁.mono (by decide)).trans (kept₂.mono (by decide))
  obtain ⟨t₃, path₃, pc₃, machine₃, kept₃⟩ := Routine.piece os (Buffer base) (both.mem ▸ loaded) pc₂
    [addImm 4 4 1, ldr 2 4 0] (by decide) rfl
  have four₂ : t₂.machine.reg 4 = s.machine.reg 4 :=
    (kept₂.reg 4 (by decide)).trans (kept₁.reg 4 (by decide))
  have four₃ : t₃.machine.reg 4 = s.machine.reg 4 + 1 := by
    rw [← four₂, machine₃]
    rfl
  have two₃ : t₃.machine.reg 2 = 100 := by
    rw [← letter, ← both.mem, ← four₂, ← plus_zero (t₂.machine.reg 4 + 1), machine₃]
    rfl
  have all : Kept [0, 1, 2, 4] s t₃ := both.trans (kept₃.mono (by decide))
  obtain ⟨t₄, path₄, pc₄, kept₄⟩ := compared os .loop .c .checkd 9 (k := 99) (all.mem ▸ loaded) pc₃
    (by decide) (by decide) (by decide) two₃
  rw [if_neg (by decide)] at pc₄
  have all : Kept [0, 1, 2, 4] s t₄ := all.trans (kept₄.mono (by decide))
  obtain ⟨t₅, path₅, pc₅, kept₅⟩ := compared os .checkd .d .str 0 (k := 100) (all.mem ▸ loaded) pc₄
    (by decide) (by decide) (by decide) ((kept₄.reg 2 (by decide)).trans two₃)
  rw [if_pos rfl] at pc₅
  have all : Kept [0, 1, 2, 4] s t₅ := all.trans (kept₅.mono (by decide))
  have four₅ : t₅.machine.reg 4 = s.machine.reg 4 + 1 :=
    ((kept₅.reg 4 (by decide)).trans (kept₄.reg 4 (by decide))).trans four₃
  have six₅ := all.reg 6 (by decide)
  have lower : t₅.machine.reg 6 + BitVec.ofInt 16 (-1) = s.machine.reg 6 - 1 := by
    rw [six₅, minus_one]
  obtain ⟨t₆, path₆, pc₆, machine₆, input₆, output₆⟩ :=
    Routine.store os (fun a => a = s.machine.reg 6 - 1)
    (all.mem ▸ loaded) pc₅ [addImm 6 6 (-1)] 4 6 0 (by decide) rfl ((plus_zero _).trans lower)
  have six₆ : t₆.machine.reg 6 = s.machine.reg 6 - 1 := by
    rw [← lower, machine₆]
    rfl
  have five₆ : t₆.machine.reg 5 = s.machine.reg 5 := by
    rw [← all.reg 5 (by decide), machine₆]
    rfl
  have mem₆ : t₆.machine.mem = fun a =>
    if a = s.machine.reg 6 - 1 then s.machine.reg 4 + 1 else s.machine.mem a := by
    rw [← four₅, ← all.mem, ← six₆, ← plus_zero (t₆.machine.reg 6), machine₆]
    rfl
  have loaded₆ : routine.Loaded base t₆.machine.mem :=
    mem₆ ▸ loaded.write fun k inside _ => room k inside
  obtain ⟨t, path, pc', machine, kept⟩ := Routine.piece os (Buffer base) loaded₆ pc₆
    [lea 4 .buf, ld 2 .zero, ld 1 .nine] (by decide) rfl
  have zero : t₆.machine.mem (routine.address base .zero) = -48 :=
    loaded₆ (index source .zero) _ (by decide) (by decide)
  have nine : t₆.machine.mem (routine.address base .nine) = -57 :=
    loaded₆ (index source .nine) _ (by decide) (by decide)
  have front := (((path₁.trans path₂).trans path₃).trans path₄).trans path₅
  refine ⟨t, ((front.mono fun _ => .inl).trans (path₆.mono fun _ => .inr)).trans
    (path.mono fun _ => .inl),
    ⟨pc'.trans (routine.place_eq (by decide)), kept.mem ▸ loaded₆, ?_, by decide, ?_, ?_, ?_⟩,
    (kept.reg 5 (by decide)).trans five₆, (kept.reg 6 (by decide)).trans six₆,
      kept.mem.trans mem₆, ?_⟩
  · rw [machine]
    rfl
  · rw [← zero, machine]
    rfl
  · rw [← nine, machine]
    rfl
  · intro j c none
    cases none
  · rw [kept.input, input₆, all.input]

variable (os) in
theorem value_stored (loaded : routine.Loaded base s.machine.mem)
    (pc : s.pc = routine.place base .notneg 0)
    (pointer : s.machine.mem (s.machine.reg 5 + 1) = target)
    (apart : ∀ k < (cells routine.items).length, base + BitVec.ofNat 16 k ≠ target)
    (saved : s.machine.mem (s.machine.reg 6) = fmt) (other : s.machine.reg 6 ≠ target) :
    ∃ t, Path os (fun a => Buffer base a ∨ a = target) s t ∧ t.pc = routine.place base .loop 0 ∧
      routine.Loaded base t.machine.mem ∧ t.machine.reg 4 = fmt + 1 ∧
        t.machine.reg 6 = s.machine.reg 6 + 1 ∧
      t.machine.mem = (fun a => if a = target then s.machine.reg 2 else s.machine.mem a) ∧
        t.input = s.input := by
  have address : s.machine.mem (s.machine.reg 5 + BitVec.ofInt 16 1 + BitVec.ofInt 16 0) =
    target := by
    rw [plus_zero]
    exact pointer
  obtain ⟨t₁, path₁, pc₁, machine₁, input₁, output₁⟩ :=
    Routine.store os (fun a => a = target) loaded pc
    [addImm 5 5 1, ldr 0 5 0] 2 0 0 (by decide) rfl ((plus_zero _).trans address)
  have mem₁ : t₁.machine.mem = fun a =>
    if a = target then s.machine.reg 2 else s.machine.mem a := by
    rw [← address, ← plus_zero (s.machine.mem _), machine₁]
    rfl
  have six₁ : t₁.machine.reg 6 = s.machine.reg 6 := by
    rw [machine₁]
    rfl
  have loaded₁ : routine.Loaded base t₁.machine.mem :=
    mem₁ ▸ loaded.write fun k inside _ => apart k inside
  obtain ⟨t, path, pc', machine, kept⟩ := Routine.branch os (Buffer base) loaded₁ pc₁
    [ldr 4 6 0, addImm 6 6 1, addImm 4 4 1] true true true .loop (by decide) rfl
  rw [takes_always, if_pos rfl] at pc'
  refine ⟨t, (path₁.mono fun _ => .inr).trans (path.mono fun _ => .inl), pc',
    kept.mem ▸ loaded₁, ?_, ?_,
    kept.mem.trans mem₁, kept.input.trans input₁⟩
  · have back : t₁.machine.mem (t₁.machine.reg 6 + BitVec.ofInt 16 0) = fmt := by
      rw [plus_zero, six₁, mem₁]
      exact (if_neg other).trans saved
    rw [← back, machine]
    rfl
  · rw [← six₁, machine]
    rfl

variable (os) in
theorem returned {r4 r5 r7 : Word} (loaded : routine.Loaded base s.machine.mem)
    (pc : s.pc = routine.place base .notneg 0) (five : s.machine.reg 5 = sp)
    (six : s.machine.reg 6 = sp - 5)
    (pointer : s.machine.mem (sp + 1) = target)
    (apart : ∀ k < (cells routine.items).length, base + BitVec.ofNat 16 k ≠ target)
    (free : target ∉ stack sp)
    (saved : s.machine.mem (sp - 5) = fmt) (final : s.machine.mem (fmt + 1) = 0)
    (other : fmt + 1 ≠ target)
    (four : s.machine.mem (sp - 4) = r4) (five' : s.machine.mem (sp - 3) = r5)
    (seven : s.machine.mem (sp - 2) = r7) :
    ∃ t, Path os (fun a => Buffer base a ∨ a = target) s t ∧ t.pc = r7 ∧ t.machine.reg 4 = r4 ∧
      t.machine.reg 5 = r5 ∧ t.machine.reg 6 = sp - 1 ∧
      t.machine.mem = (fun a => if a = target then s.machine.reg 2 else s.machine.mem a) ∧
        t.input = s.input := by
  simp only [stack, saves, List.cons_append, List.nil_append, List.mem_cons, List.not_mem_nil,
    or_false, not_or] at free
  obtain ⟨t₁, path₁, pc₁, loaded₁, four₁, six₁, mem₁, input₁⟩ :=
    value_stored os loaded pc (five ▸ pointer) apart
    (six ▸ saved) (six ▸ fun same => free.2.2.2 same.symm)
  have zero : t₁.machine.mem (t₁.machine.reg 4) = 0 := by
    rw [four₁, mem₁]
    exact (if_neg other).trans final
  obtain ⟨t₂, path₂, pc₂, two₂, kept₂⟩ := format_read os loaded₁ pc₁ zero
  have kept {a w : Word} (away : target ≠ a) (there : s.machine.mem a = w) :
    t₂.machine.mem a = w := by
    rw [kept₂.mem, mem₁]
    exact (if_neg away.symm).trans there
  have top : t₂.machine.reg 6 = sp - 4 := by
    have next : sp - 5 = sp - 4 - 1 := by
      rw [sub_sub]
      rfl
    rw [kept₂.reg 6 (by decide), six₁, six, next, BitVec.sub_add_cancel]
  obtain ⟨t, path, pc', mem', four', five'', six', input', output'⟩ :=
    left os (Buffer base) (kept₂.mem ▸ loaded₁)
    (pc₂.trans (if_pos rfl)) (by decide) top (kept free.2.2.1 four) (kept free.2.1 five')
    (kept free.1 seven)
  exact ⟨t, path₁.trans ((path₂.trans path).mono fun _ => .inl), pc', four', five'', six',
    mem'.trans (kept₂.mem.trans mem₁), (input'.trans kept₂.input).trans input₁⟩

end

end LC3Tools.Stdio.Scanf
