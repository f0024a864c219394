import LC3Tools.Stdio.Blocks

/-! What the routines of the library do on their way in and out: registers are saved below the stack
pointer, and the format and the arguments stand from it on. -/
namespace LC3Tools.Stdio
open Emit StateTransition Inst

/-- The memory has the property whatever else stands in some of its words. -/
def Settled (written : Word → Prop) (mem : Word → Word) (property : (Word → Word) → Prop) : Prop :=
  ∀ mem', (∀ a, ¬ written a → mem' a = mem a) → property mem'

theorem Settled.now {written : Word → Prop} {mem : Word → Word} {property : (Word → Word) → Prop}
    (settled : Settled written mem property) : property mem :=
  settled mem fun _ _ => rfl

theorem Settled.later {written : Word → Prop} {mem mem' : Word → Word}
    {property : (Word → Word) → Prop}
    (settled : Settled written mem property) (same : ∀ a, ¬ written a → mem' a = mem a) :
    Settled written mem' property :=
  fun mem'' same' => settled mem'' fun a away => (same' a away).trans (same a away)

variable {L : Type}

def entry : List (Inst L) :=
  [addImm 6 6 (-2), str 7 6 0, addImm 6 6 (-1), str 5 6 0, addImm 5 6 (-1), addImm 6 6 (-1),
    str 4 6 0,
    addImm 5 5 4, ldr 4 5 0]

def leave : List (Inst L) :=
  [ldr 4 6 0, addImm 6 6 1, ldr 5 6 0, addImm 6 6 1, ldr 7 6 0, addImm 6 6 1, ret]

/-- The words below the stack pointer in which registers are saved. -/
def saves (sp : Word) : List Word := [sp - 2, sp - 3, sp - 4]

/-- The memory behind the entry. -/
def saved (s : State) (sp : Word) (a : Word) : Word :=
  if a = sp - 4 then s.machine.reg 4
  else if a = sp - 3 then s.machine.reg 5
  else if a = sp - 2 then s.machine.reg 7
  else s.machine.mem a

theorem saved_outside {s : State} {sp a : Word} (away : a ∉ saves sp) :
    saved s sp a = s.machine.mem a := by
  simp only [saves, List.mem_cons, List.not_mem_nil, or_false, not_or] at away
  rw [saved, if_neg away.2.2, if_neg away.2.1, if_neg away.1]

theorem stack_top (sp : Word) : sp ∉ saves sp := by
  have lower : ∀ n : Word, n ≠ 0 → sp ≠ sp - n :=
    fun n nonzero same => nonzero (sub_eq_self.mp same.symm)
  simp only [saves, List.mem_cons, List.not_mem_nil, or_false, not_or]
  exact ⟨lower 2 (by decide), lower 3 (by decide), lower 4 (by decide)⟩

theorem saved_inside (s : State) (sp : Word) : saved s sp (sp - 4) = s.machine.reg 4 ∧
    saved s sp (sp - 3) = s.machine.reg 5 ∧ saved s sp (sp - 2) = s.machine.reg 7 := by
  have different : (3 : Word) ≠ 4 ∧ (2 : Word) ≠ 4 ∧ (2 : Word) ≠ 3 := by decide
  simp only [saved, sub_right_inj, different, if_true, if_false, and_self]

theorem split_prefix {α β : Type} {f : α → β} (front : List α) {back : List α} {items : List β}
    {k : Nat}
    (there : (front ++ back).map f <+: items.drop k) :
    front.map f <+: items.drop k ∧ back.map f <+: items.drop (k + front.length) := by
  obtain ⟨behind, whole⟩ := there
  rw [List.map_append, List.append_assoc] at whole
  refine ⟨⟨_, whole⟩, behind, ?_⟩
  rw [← List.drop_drop, ← whole, ← List.length_map f, List.drop_left]

section
variable [DecidableEq L] {r : Routine L} {os : Os} {ws : Word → Prop} {base : Word} {s : State}
  {start : L}

/-- The stack does not grow into the routine. -/
def Room (r : Routine L) (base sp : Word) : Prop :=
  ∀ k < (cells r.items).length, base + BitVec.ofNat 16 k ∉ saves sp

instance (r : Routine L) (base sp : Word) : Decidable (Room r base sp) := by
  unfold Room
  infer_instance

variable (os) in
theorem entered {sp : Word} (loaded : r.Loaded base s.machine.mem)
    (pc : s.pc = r.place base start 0)
    (there : entry.map .inst <+: (cells r.items).drop (index r.items start + 0))
    (stack : s.machine.reg 6 = sp) (room : Room r base sp) :
    ∃ t, Path os (· ∈ saves sp) s t ∧ t.pc = r.place base start 9 ∧ r.Loaded base t.machine.mem ∧
      t.machine.mem = saved s sp ∧ t.machine.reg 4 = t.machine.mem sp ∧ t.machine.reg 5 = sp ∧
      t.machine.reg 6 = sp - 4 ∧ t.input = s.input ∧ t.output = s.output := by
  have part₁ := split_prefix [addImm 6 6 (-2), str 7 6 0] there
  have part₂ := split_prefix [addImm 6 6 (-1), str 5 6 0] part₁.2
  have part₃ := split_prefix [addImm 5 6 (-1), addImm 6 6 (-1), str 4 6 0] part₂.2
  have outside {a : Word} (mem : a ∈ saves sp) (k : Nat) (inside : k < (cells r.items).length)
      (_ : r.scratch k = false) : base + BitVec.ofNat 16 k ≠ a :=
    fun same => room k inside (same ▸ mem)
  have inside₁ : s.machine.reg 6 + BitVec.ofInt 16 (-2) + BitVec.ofInt 16 0 ∈ saves sp := by
    rw [plus_zero, stack, saves, BitVec.sub_eq_add_neg]
    exact List.mem_cons_self
  obtain ⟨t₁, reaches₁, pc₁, machine₁, input₁, output₁⟩ := Routine.store os (· ∈ saves sp) loaded pc
    [addImm 6 6 (-2)] 7 6 0 part₁.1 rfl inside₁
  have six₁ : t₁.machine.reg 6 = sp - 2 := by
    rw [machine₁, BitVec.sub_eq_add_neg, ← stack]
    rfl
  have mem₁ : t₁.machine.mem = fun a =>
    if a = sp - 2 then s.machine.reg 7 else s.machine.mem a := by
    rw [← six₁, ← plus_zero (t₁.machine.reg 6), machine₁]
    rfl
  have loaded₁ : r.Loaded base t₁.machine.mem := mem₁ ▸ loaded.write (outside (by simp [saves]))
  have lower₁ : t₁.machine.reg 6 + BitVec.ofInt 16 (-1) = sp - 3 := by
    rw [minus_one, six₁, sub_sub]
    rfl
  have inside₂ : t₁.machine.reg 6 + BitVec.ofInt 16 (-1) + BitVec.ofInt 16 0 ∈ saves sp := by
    rw [plus_zero, lower₁]
    simp [saves]
  obtain ⟨t₂, reaches₂, pc₂, machine₂, input₂, output₂⟩ :=
    Routine.store os (· ∈ saves sp) loaded₁ pc₁
    [addImm 6 6 (-1)] 5 6 0 part₂.1 rfl inside₂
  have six₂ : t₂.machine.reg 6 = sp - 3 := by
    rw [← lower₁, machine₂]
    rfl
  have mem₂ : t₂.machine.mem = fun a =>
    if a = sp - 3 then s.machine.reg 5 else t₁.machine.mem a := by
    have five : s.machine.reg 5 = t₁.machine.reg 5 := by
      rw [machine₁]
      rfl
    rw [← six₂, ← plus_zero (t₂.machine.reg 6), five, machine₂]
    rfl
  have loaded₂ : r.Loaded base t₂.machine.mem := mem₂ ▸ loaded₁.write (outside (by simp [saves]))
  have lower₂ : t₂.machine.reg 6 + BitVec.ofInt 16 (-1) = sp - 4 := by
    rw [minus_one, six₂, sub_sub]
    rfl
  have inside₃ : t₂.machine.reg 6 + BitVec.ofInt 16 (-1) + BitVec.ofInt 16 0 ∈ saves sp := by
    rw [plus_zero, lower₂]
    simp [saves]
  obtain ⟨t₃, reaches₃, pc₃, machine₃, input₃, output₃⟩ :=
    Routine.store os (· ∈ saves sp) loaded₂ pc₂
    [addImm 5 6 (-1), addImm 6 6 (-1)] 4 6 0 part₃.1 rfl inside₃
  have six₃ : t₃.machine.reg 6 = sp - 4 := by
    rw [← lower₂, machine₃]
    rfl
  have five₃ : t₃.machine.reg 5 = sp - 4 := by
    rw [← lower₂, machine₃]
    rfl
  have mem₃ : t₃.machine.mem = saved s sp := by
    have four : s.machine.reg 4 = t₂.machine.reg 4 := by
      rw [machine₂, machine₁]
      rfl
    have top : saved s sp = fun a => if a = sp - 4 then s.machine.reg 4 else t₂.machine.mem a := by
      rw [mem₂, mem₁]
      rfl
    rw [top, ← six₃, ← plus_zero (t₃.machine.reg 6), four, machine₃]
    rfl
  have loaded₃ : r.Loaded base t₃.machine.mem := by
    have whole : t₃.machine.mem = fun a =>
      if a = sp - 4 then s.machine.reg 4 else t₂.machine.mem a := by
      rw [mem₃, mem₂, mem₁]
      rfl
    exact whole ▸ loaded₂.write (outside (by simp [saves]))
  obtain ⟨t, reaches, pc', machine, kept⟩ := Routine.piece os (· ∈ saves sp) loaded₃ pc₃
    [addImm 5 5 4, ldr 4 5 0] part₃.2 rfl
  have five : t.machine.reg 5 = sp := by
    rw [← BitVec.sub_add_cancel sp 4, ← five₃, machine]
    rfl
  refine ⟨t, ((reaches₁.trans reaches₂).trans reaches₃).trans reaches, pc', kept.mem ▸ loaded₃,
    kept.mem.trans mem₃, ?_, five, (kept.reg 6 (by simp [Inst.dest])).trans six₃, ?_, ?_⟩
  · rw [kept.mem, ← plus_zero sp, ← five, machine]
    rfl
  · rw [kept.input, input₃, input₂, input₁]
  · rw [kept.output, output₃, output₂, output₁]

variable (os ws) in
theorem left {sp r4 r5 r7 : Word} (loaded : r.Loaded base s.machine.mem)
    (pc : s.pc = r.place base start 0)
    (there : leave.map .inst <+: (cells r.items).drop (index r.items start + 0))
    (stack : s.machine.reg 6 = sp - 4) (four : s.machine.mem (sp - 4) = r4)
    (five : s.machine.mem (sp - 3) = r5)
    (seven : s.machine.mem (sp - 2) = r7) :
    ∃ t, Path os ws s t ∧ t.pc = r7 ∧ t.machine.mem = s.machine.mem ∧ t.machine.reg 4 = r4 ∧
      t.machine.reg 5 = r5 ∧ t.machine.reg 6 = sp - 1 ∧ t.input = s.input ∧
        t.output = s.output := by
  have parts := split_prefix [ldr 4 6 0, addImm 6 6 1, ldr 5 6 0, addImm 6 6 1, ldr 7 6 0,
      addImm 6 6 1]
    there
  obtain ⟨t, reaches, pc', machine, kept⟩ := Routine.piece os ws loaded pc _ parts.1 rfl
  have up (k : Nat) : sp - BitVec.ofNat 16 (k + 1) + BitVec.ofInt 16 1 =
    sp - BitVec.ofNat 16 k := by
    rw [BitVec.ofNat_add, ← sub_sub]
    exact BitVec.sub_add_cancel _ _
  have four' : t.machine.reg 4 = r4 := by
    rw [← four, ← stack, ← plus_zero (s.machine.reg 6), machine]
    rfl
  have five' : t.machine.reg 5 = r5 := by
    have address : sp - 3 = s.machine.reg 6 + BitVec.ofInt 16 1 + BitVec.ofInt 16 0 := by
      rw [plus_zero, stack]
      exact (up 3).symm
    rw [← five, address, machine]
    rfl
  have seven' : t.machine.reg 7 = r7 := by
    have address : sp - 2 = s.machine.reg 6 + BitVec.ofInt 16 1 + BitVec.ofInt 16 1 +
      BitVec.ofInt 16 0 := by
      rw [plus_zero, stack]
      exact ((congrArg (· + BitVec.ofInt 16 1) (up 3)).trans (up 2)).symm
    rw [← seven, address, machine]
    rfl
  have six : t.machine.reg 6 = sp - 1 := by
    have address : sp - 1 = s.machine.reg 6 + BitVec.ofInt 16 1 + BitVec.ofInt 16 1 +
      BitVec.ofInt 16 1 := by
      rw [stack]
      exact ((congrArg (· + BitVec.ofInt 16 1)
        ((congrArg (· + BitVec.ofInt 16 1) (up 3)).trans (up 2))).trans (up 1)).symm
    rw [address, machine]
    rfl
  have last : (cells r.items)[index r.items start + 6]? = some (.inst .ret) := by
    obtain ⟨behind, whole⟩ := parts.2
    have head := congrArg List.head? whole
    rw [List.head?_drop] at head
    exact head.symm
  have returned := Routine.step_at os (kept.mem ▸ loaded) pc' last
  exact ⟨_, reaches.tail ⟨returned, fun _ _ => rfl⟩, seven', kept.mem, four', five', six,
    kept.input, kept.output⟩

end

end LC3Tools.Stdio
