import LC3Tools.Lcc.Constants

/-! `lc3_store_far_on_stack`, which stores a register in a frame of any size. -/
namespace LC3Tools.Emit

/-- How the address is put into R4, and the offset that is left for the store. A constant
takes four words, so a short chain of additions is preferred: up to 3 of them in
`lc3.md`, up to 4 in `lc3dtu_32bit.md`. -/
def farAddress (cheap : Nat) (i : Int) : List Line × Int :=
  if (0 < i ∧ i > cheap * 15) ∨ (i < 0 ∧ i < -cheap * 16) then (constant 4 5 i, 0)
  else if 0 < i then (addimms 4 5 15 1 (i - min i 31), min i 31)
  else (addimms 4 5 16 (-1) (-(i - max i (-32))), max i (-32))

def storeFarOnStack (cheap : Nat) (srcReg : Fin 8) (bigOffset : Int) : List Line :=
  if -32 ≤ bigOffset ∧ bigOffset ≤ 31 then [.store srcReg 5 bigOffset]
  else [.store 4 6 (-1)] ++ (farAddress cheap bigOffset).1 ++
    [.store srcReg 4 (farAddress cheap bigOffset).2, .load 4 6 (-1)]

section
variable {globals : String → Word} {cheap : Nat} {i : Int}

theorem farAddress_closed (cheap : Nat) (i : Int) : Closed (farAddress cheap i).1 := by
  unfold farAddress
  split
  · exact constant_closed 4 5 i
  · split <;> exact closed_of_plain (addimms_plain ..)

variable (globals cheap) in
theorem farAddress_runs (m : Machine) : ∃ a, Executes globals (farAddress cheap i).1 m (m.set 4 a) ∧
    a + BitVec.ofInt 16 (farAddress cheap i).2 = m.reg 5 + BitVec.ofInt 16 i := by
  unfold farAddress
  split
  · exact ⟨_, constant_runs (by decide) i, plus_zero _⟩
  · split
    · refine ⟨_, addimms_runs 4 5 15 1 _, ?_⟩
      rw [BitVec.add_assoc, ← BitVec.ofInt_add]
      congr 2
      omega
    · refine ⟨_, addimms_runs 4 5 16 (-1) _, ?_⟩
      rw [BitVec.add_assoc, ← BitVec.ofInt_add]
      congr 2
      omega

variable (cheap) in
theorem farAddress_fits (low : -0x8000 ≤ i) (high : i ≤ 0x7fff) (far : ¬ (-32 ≤ i ∧ i ≤ 31)) :
    (∀ line ∈ (farAddress cheap i).1, line.Fits) ∧
      -32 ≤ (farAddress cheap i).2 ∧ (farAddress cheap i).2 ≤ 31 := by
  unfold farAddress
  split
  · exact ⟨(constant_fits 4 5 i).mpr (by omega), by dsimp only; omega, by dsimp only; omega⟩
  · split
    · exact ⟨addimms_fits_up 4 5 (by omega), by dsimp only; omega, by dsimp only; omega⟩
    · exact ⟨addimms_fits_down 4 5 (by omega), by dsimp only; omega, by dsimp only; omega⟩

theorem storeFarOnStack_fits (cheap : Nat) (srcReg : Fin 8) (low : -0x8000 ≤ i)
    (high : i ≤ 0x7fff) :
    ∀ line ∈ storeFarOnStack cheap srcReg i, line.Fits := by
  unfold storeFarOnStack
  split
  · rename_i near
    intro line mem
    cases List.mem_singleton.mp mem
    exact near
  · rename_i far
    obtain ⟨address, offset⟩ := farAddress_fits cheap low high far
    intro line mem
    simp only [List.mem_append, List.mem_cons, List.not_mem_nil, or_false] at mem
    rcases mem with (rfl | mem) | rfl | rfl
    · exact ⟨by decide, by decide⟩
    · exact address line mem
    · exact offset
    · exact ⟨by decide, by decide⟩

end

/-- `R5` and the offset. -/
def Machine.slot (m : Machine) (offset : Int) : Word := m.reg 5 + BitVec.ofInt 16 offset

/-- The code fits its fields, and stores the register in the slot. Every register is left
as before, and all memory but the word just below R6. -/
structure StoresFar (cheap : Nat) (srcReg : Fin 8) (bigOffset : Int) (globals : String → Word)
    (m : Machine) : Prop where
  fits : ∀ line ∈ storeFarOnStack cheap srcReg bigOffset, line.Fits
  runs : ∃ m', Executes globals (storeFarOnStack cheap srcReg bigOffset) m m' ∧ m'.reg = m.reg ∧
    m'.mem (m.slot bigOffset) = m.reg srcReg ∧
    ∀ a, a ≠ m.slot bigOffset → a ≠ m.reg 6 - 1 → m'.mem a = m.mem a

theorem far_state (cheap : Nat) {srcReg : Fin 8} (other : srcReg ≠ 4) {bigOffset : Int}
    (far : ¬ (-32 ≤ bigOffset ∧ bigOffset ≤ 31)) (globals : String → Word) (m : Machine) :
    ∃ address, ∀ t, t = ((m.write (m.reg 6 - 1) (m.reg 4)).set 4 address).write (m.slot bigOffset)
      (m.reg srcReg) →
      Executes globals (storeFarOnStack cheap srcReg bigOffset) m
        (t.set 4 (t.mem (m.reg 6 - 1))) := by
  obtain ⟨address, found, slot⟩ := farAddress_runs globals cheap (i := bigOffset)
    (run globals [.store 4 6 (-1)] m)
  have spilled : run globals [.store 4 6 (-1)] m = m.write (m.reg 6 - 1) (m.reg 4) := by
    simp only [run_cons, run_nil, Line.effect, minus_one]
  rw [spilled] at found slot
  rw [Machine.write_reg] at slot
  refine ⟨address, fun t state => ?_⟩
  have final : run globals [.store srcReg 4 (farAddress cheap bigOffset).2, .load 4 6 (-1)]
      ((m.write (m.reg 6 - 1) (m.reg 4)).set 4 address) = t.set 4 (t.mem (m.reg 6 - 1)) := by
    have stack : (6 : Fin 8) ≠ 4 := by decide
    simp only [run_cons, run_nil, Line.effect, minus_one, Machine.set_same, slot, Machine.set_reg,
      Machine.write_reg, if_neg other, if_neg stack, state, Machine.slot]
  have whole : Executes globals ([.store 4 6 (-1)] ++ (farAddress cheap bigOffset).1 ++
      [.store srcReg 4 (farAddress cheap bigOffset).2, .load 4 6 (-1)]) m (run globals _ _) :=
    Executes.wrap (spilled ▸ found) (farAddress_closed cheap bigOffset) rfl rfl
  rw [spilled, final] at whole
  rw [storeFarOnStack, if_neg far]
  exact whole

/-- The slot of a far store may be any word but the one in which R4 is saved. -/
theorem stores_far (cheap : Nat) {srcReg : Fin 8} (other : srcReg ≠ 4) {bigOffset : Int}
    (low : -0x8000 ≤ bigOffset) (high : bigOffset ≤ 0x7fff) (globals : String → Word) {m : Machine}
    (clear : m.slot bigOffset ≠ m.reg 6 - 1) : StoresFar cheap srcReg bigOffset globals m := by
  refine ⟨storeFarOnStack_fits cheap srcReg low high, ?_⟩
  by_cases near : -32 ≤ bigOffset ∧ bigOffset ≤ 31
  · rw [storeFarOnStack, if_pos near]
    refine ⟨_, executes_straight rfl, rfl, ?_, fun a away _ => ?_⟩
    · exact Machine.write_same ..
    · exact if_neg away
  · obtain ⟨address, executes⟩ := far_state cheap other near globals m
    refine ⟨_, executes _ rfl, ?_, ?_, fun a away below => ?_⟩
    · funext j
      simp only [Machine.set_reg, Machine.write_reg, Machine.write_mem, Machine.set_mem,
        if_neg clear.symm, if_true]
      split <;> rename_i temp
      · rw [temp]
      · rfl
    · rw [Machine.set_mem, Machine.write_same]
    · rw [Machine.set_mem, Machine.write_mem, if_neg away, Machine.set_mem, Machine.write_mem,
        if_neg below]

/-- A frame at 0x5000 over a stack at 0x4000. -/
def ordinary : Machine := ⟨fun i => if i = 5 then 0x5000 else 0x4000, fun _ => 0, 0⟩

theorem stores_at_forty : StoresFar 3 0 40 (fun _ => 0) ordinary :=
  stores_far 3 (by decide) (by decide) (by decide) _ (by decide)

/-- A frame at the end of memory over an empty stack, with 1 in R0. -/
def atTop : Machine := ⟨fun i => if i = 5 then 0xffd7 else if i = 0 then 1 else 0, fun _ => 0, 0⟩

theorem clobbered_at_top : atTop.reg 6 ≤ atTop.slot 40 ∧ ¬ StoresFar 3 0 40 (fun _ => 0) atTop := by
  refine ⟨by decide, fun stores => ?_⟩
  obtain ⟨address, executes⟩ := far_state 3 (show (0 : Fin 8) ≠ 4 by decide)
    (show ¬ (-32 ≤ (40 : Int) ∧ (40 : Int) ≤ 31) by decide) (fun _ => 0) atTop
  obtain ⟨m', executes', kept, -⟩ := stores.runs
  have same := congrArg Prod.snd (executes'.unique (executes _ rfl))
  have four : m'.reg 4 = 0 := by
    rw [kept]
    rfl
  rw [show m' = _ from same, Machine.set_same] at four
  have slot : atTop.slot 40 = atTop.reg 6 - 1 := by decide
  rw [slot, Machine.write_same] at four
  exact absurd four (by decide)

end LC3Tools.Emit
