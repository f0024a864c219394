import LC3Tools.Stdio.ScanfRuns

/-! The sum of the digits in the buffer. -/
namespace LC3Tools.Stdio.Scanf
open Emit StateTransition Inst

set_option maxRecDepth 8000

/-- What the loop adds up from an address on, with so many words behind it. -/
def sumFrom (mem : Word → Word) : Nat → Word → Word → Word
  | 0, p, v => v + (mem p - 48)
  | d + 1, p, v => sumFrom mem d (p + 1) ((v + (mem p - 48)) * 10)

section
variable {os : Os} {base : Word} {s : State} {v p : Word}

theorem times_ten (x : Word) : x * 10 = x + BitVec.ofNat 16 (8 + 1) * x := by
  have ten : (10 : Word) = 1 + BitVec.ofNat 16 (8 + 1) := by decide
  rw [ten, mul_add, mul_one, BitVec.mul_comm x]

variable (os) in
theorem mulloop_pass {j : Nat} {x : Word} (loaded : routine.Loaded base s.machine.mem)
    (pc : s.pc = routine.place base .mulloop 0)
    (counter : s.machine.reg 1 = BitVec.ofNat 16 (j + 1))
    (factor : s.machine.reg 0 = x) :
    ∃ t, Path os (Buffer base) s t ∧
      t.pc = (if BitVec.ofNat 16 j ≠ 0#16 then routine.place base .mulloop 0
        else routine.place base .mulloop 3) ∧
      t.machine.reg 2 = s.machine.reg 2 + x ∧ t.machine.reg 1 = BitVec.ofNat 16 j ∧
        Kept [1, 2] s t := by
  obtain ⟨t, path, pc', machine, kept⟩ :=
    Routine.branch os (Buffer base) loaded pc [add 2 2 0, addImm 1 1 (-1)]
    true false true .mulloop (by decide) rfl
  have count : t.machine.reg 1 = BitVec.ofNat 16 j := by
    rw [← ofNat_pred, ← counter, ← minus_one, machine]
    rfl
  have last : t.machine.last = BitVec.ofNat 16 j := by
    rw [← count, machine]
    rfl
  refine ⟨t, path, ?_, ?_, count, kept.mono (by decide)⟩
  · rw [pc', ← machine, takes_np, last]
    by_cases zero : BitVec.ofNat 16 j = 0#16 <;> simp [zero]
  · rw [← factor, machine]
    rfl

variable (os) in
theorem mulloop {j : Nat} {x : Word} (small : j + 1 < 2 ^ 16)
    (loaded : routine.Loaded base s.machine.mem)
    (pc : s.pc = routine.place base .mulloop 0)
    (counter : s.machine.reg 1 = BitVec.ofNat 16 (j + 1))
    (factor : s.machine.reg 0 = x) :
    ∃ t, Path os (Buffer base) s t ∧ t.pc = routine.place base .mulloop 3 ∧
      t.machine.reg 2 = s.machine.reg 2 + BitVec.ofNat 16 (j + 1) * x ∧ Kept [1, 2] s t := by
  induction j generalizing s with
  | zero =>
    obtain ⟨t, path, pc', sum, count, kept⟩ := mulloop_pass os loaded pc counter factor
    refine ⟨t, path, pc'.trans (if_neg (by decide)), ?_, kept⟩
    rw [sum]
    exact congrArg (s.machine.reg 2 + ·) (BitVec.one_mul x).symm
  | succ j ih =>
    obtain ⟨t, path, pc', sum, count, kept⟩ := mulloop_pass os loaded pc counter factor
    have nonzero : BitVec.ofNat 16 (j + 1) ≠ 0#16 := by
      intro zero
      have := congrArg BitVec.toNat zero
      rw [BitVec.toNat_ofNat, Nat.mod_eq_of_lt (by omega)] at this
      cases this
    obtain ⟨u, path', pc'', sum', kept'⟩ :=
      ih (by omega) (kept.mem ▸ loaded) (pc'.trans (if_pos nonzero)) count
      ((kept.reg 0 (by decide)).trans factor)
    refine ⟨u, path.trans path', pc'', ?_, kept.trans kept'⟩
    rw [sum', sum, BitVec.ofNat_add (j + 1), BitVec.add_mul, BitVec.add_assoc,
      BitVec.add_comm (BitVec.ofNat 16 (j + 1) * x)]
    exact congrArg (fun y => s.machine.reg 2 + (y + BitVec.ofNat 16 (j + 1) * x))
      (BitVec.one_mul x).symm

variable (os) in
theorem calc_pass (loaded : routine.Loaded base s.machine.mem)
    (pc : s.pc = routine.place base .calc 0)
    (here : s.machine.reg 7 = p) (sum : s.machine.reg 2 = v) :
    ∃ t, Path os (Buffer base) s t ∧ Kept [0, 1, 2, 7] s t ∧
      if s.machine.reg 4 = p then t.pc = routine.place base .calcdone 0 ∧
        t.machine.reg 2 = v + (s.machine.mem p - 48)
      else t.pc = routine.place base .calc 0 ∧ t.machine.reg 2 = (v + (s.machine.mem p - 48)) * 10 ∧
        t.machine.reg 7 = p + 1 := by
  obtain ⟨t, path, pc', machine, kept⟩ := Routine.branch os (Buffer base) loaded pc
    [ldr 0 7 0, ld 1 .zero, add 0 0 1, add 2 2 0, not 1 7, addImm 1 1 1, add 1 4 1]
      false true false .calcdone
    (by decide) rfl
  have zero : s.machine.mem (routine.address base .zero) = -48 :=
    loaded (index source .zero) _ (by decide) (by decide)
  have two : t.machine.reg 2 = v + (s.machine.mem p - 48) := by
    rw [BitVec.sub_eq_add_neg, ← zero, ← sum, ← here, ← plus_zero (s.machine.reg 7), machine]
    rfl
  have last : t.machine.last = s.machine.reg 4 - p := by
    rw [BitVec.sub_eq_add_neg, ← neg_word, ← here, machine]
    rfl
  have equal : t.machine.last = 0#16 ↔ s.machine.reg 4 = p := by
    rw [last, BitVec.sub_eq_iff_eq_add, BitVec.zero_add]
  rw [← machine, takes_z] at pc'
  split
  · rename_i same
    rw [decide_eq_true (equal.mpr same), if_pos rfl] at pc'
    exact ⟨t, path, kept.mono (by decide), pc', two⟩
  · rename_i differ
    rw [decide_eq_false fun h => differ (equal.mp h), if_neg Bool.false_ne_true] at pc'
    have loaded' : routine.Loaded base t.machine.mem := kept.mem ▸ loaded
    obtain ⟨t₁, path₁, pc₁, machine₁, kept₁⟩ := Routine.piece os (Buffer base) loaded' pc'
      [addImm 0 2 0, andImm 1 1 0, addImm 1 1 9] (by decide) rfl
    have factor : t₁.machine.reg 0 = t.machine.reg 2 := by
      rw [← plus_zero (t.machine.reg 2), machine₁]
      rfl
    have counter : t₁.machine.reg 1 = BitVec.ofNat 16 (8 + 1) := by
      rw [machine₁]
      exact (congrArg (· + BitVec.ofInt 16 9) BitVec.and_zero).trans (by decide)
    obtain ⟨t₂, path₂, pc₂, two₂, kept₂⟩ := mulloop os (by decide) (kept₁.mem ▸ loaded')
      (pc₁.trans (routine.place_eq (by decide))) counter factor
    obtain ⟨u, path', pc'', machine', kept'⟩ :=
      Routine.branch os (Buffer base) (kept₂.mem ▸ kept₁.mem ▸ loaded') pc₂
      [addImm 7 7 1] true true true .calc (by decide) rfl
    rw [takes_always, if_pos rfl] at pc''
    have seven : t₂.machine.reg 7 = p :=
      ((kept₂.reg 7 (by decide)).trans (kept₁.reg 7 (by decide))).trans
      ((kept.reg 7 (by decide)).trans here)
    refine ⟨u, ((path.trans path₁).trans path₂).trans path',
      (((kept.mono (by decide)).trans (kept₁.mono (by decide))).trans
        (kept₂.mono (by decide))).trans
        (kept'.mono (by decide)), pc'', ?_, ?_⟩
    · rw [kept'.reg 2 (by decide), two₂, kept₁.reg 2 (by decide), ← two]
      exact (times_ten _).symm
    · rw [← seven, machine']
      rfl

variable (os) in
/-- The words up to the one that R4 points to are added up, whatever they are. -/
theorem summed {d : Nat} (small : d < 2 ^ 16) (loaded : routine.Loaded base s.machine.mem)
    (pc : s.pc = routine.place base .calc 0) (here : s.machine.reg 7 = p)
    (sum : s.machine.reg 2 = v) (last : s.machine.reg 4 = p + BitVec.ofNat 16 d) :
    ∃ t, Path os (Buffer base) s t ∧ t.pc = routine.place base .calcdone 0 ∧
      t.machine.reg 2 = sumFrom s.machine.mem d p v ∧ Kept [0, 1, 2, 7] s t := by
  induction d generalizing s p v with
  | zero =>
    obtain ⟨t, path, kept, on⟩ := calc_pass os loaded pc here sum
    rw [if_pos (last.trans (BitVec.add_zero p))] at on
    exact ⟨t, path, on.1, on.2, kept⟩
  | succ d ih =>
    obtain ⟨t, path, kept, on⟩ := calc_pass os loaded pc here sum
    have differ : s.machine.reg 4 ≠ p := by
      intro same
      have zero : BitVec.ofNat 16 (d + 1) = 0 := by
        rw [last] at same
        exact add_eq_left.mp same
      have := congrArg BitVec.toNat zero
      rw [BitVec.toNat_ofNat, Nat.mod_eq_of_lt small] at this
      cases this
    rw [if_neg differ] at on
    have behind : t.machine.reg 4 = p + 1 + BitVec.ofNat 16 d := by
      rw [kept.reg 4 (by decide), last, Nat.add_comm, BitVec.ofNat_add, BitVec.add_assoc]
      rfl
    obtain ⟨u, path', pc', sum', kept'⟩ :=
      ih (by omega) (kept.mem ▸ loaded) on.1 on.2.2 on.2.1 behind
    exact ⟨u, path.trans path', pc', by rw [sum', kept.mem]; rfl, kept.trans kept'⟩

variable (os) in
theorem sign_looked (start other : Label) (n : Nat) (loaded : routine.Loaded base s.machine.mem)
    (pc : s.pc = routine.place base start n)
    (there : ([ld 0 Label.minus, ld 1 .buf, add 0 0 1] ++ [br true false true other]).map .inst <+:
      (cells routine.items).drop (index routine.items start + n)) :
    ∃ t, Path os (Buffer base) s t ∧
      t.pc = (if s.machine.mem (routine.place base .buf 0) =
        45 then routine.place base start (n + 4)
        else routine.place base other 0) ∧ Kept [0, 1] s t := by
  obtain ⟨t, path, pc', machine, kept⟩ :=
    Routine.branch os (Buffer base) loaded pc _ true false true other there rfl
  have minus : s.machine.mem (routine.address base .minus) = -45 :=
    loaded (index source .minus) _ (by decide) (by decide)
  have last : t.machine.last = s.machine.mem (routine.place base .buf 0) - 45 := by
    rw [BitVec.sub_eq_add_neg, BitVec.add_comm, ← minus, machine]
    rfl
  have equal : t.machine.last = 0#16 ↔ s.machine.mem (routine.place base .buf 0) = 45 := by
    rw [last, BitVec.sub_eq_iff_eq_add, BitVec.zero_add]
  rw [← machine, takes_np] at pc'
  refine ⟨t, path, ?_, kept.mono (by simp [Inst.dest])⟩
  rw [pc']
  by_cases sign : s.machine.mem (routine.place base .buf 0) = 45
  · rw [decide_eq_true (equal.mpr sign), if_pos sign]
    rfl
  · rw [decide_eq_false fun zero => sign (equal.mp zero), if_neg sign]
    rfl

variable (os) in
theorem sum_begun (loaded : routine.Loaded base s.machine.mem)
    (pc : s.pc = routine.place base .numdone 0) :
    ∃ t, Path os (Buffer base) s t ∧ t.pc = routine.place base .calc 0 ∧ t.machine.reg 2 = 0 ∧
      t.machine.reg 7 = routine.place base .buf
        (if s.machine.mem (routine.place base .buf 0) = 45 then 1 else 0) ∧
      Kept [0, 1, 2, 7] s t := by
  obtain ⟨t₁, path₁, pc₁, machine₁, kept₁⟩ := Routine.piece os (Buffer base) loaded pc [lea 7 .buf]
    (by decide) rfl
  have seven₁ : t₁.machine.reg 7 = routine.place base .buf 0 := by
    rw [machine₁]
    rfl
  obtain ⟨t₂, path₂, pc₂, kept₂⟩ :=
    sign_looked os .numdone .notminus 1 (kept₁.mem ▸ loaded) pc₁ (by decide)
  have both : Kept [0, 1, 2, 7] s t₂ := (kept₁.mono (by decide)).trans (kept₂.mono (by decide))
  rw [kept₁.mem] at pc₂
  -- the accumulator is cleared on both ways
  have cleared {u : State} (path : Path os (Buffer base) s u) (kept : Kept [0, 1, 2, 7] s u)
      (here : u.pc = routine.place base .notminus 0) : ∃ t, Path os (Buffer base) s t ∧
        t.pc = routine.place base .calc 0 ∧ t.machine.reg 2 = 0 ∧
          t.machine.reg 7 = u.machine.reg 7 ∧
        Kept [0, 1, 2, 7] s t := by
    obtain ⟨t, path', pc', machine', kept'⟩ :=
      Routine.piece os (Buffer base) (kept.mem ▸ loaded) here [andImm 2 2 0]
      (by decide) rfl
    refine ⟨t, path.trans path', pc'.trans (routine.place_eq (by decide)), ?_,
      kept'.reg 7 (by decide),
      kept.trans (kept'.mono (by decide))⟩
    rw [machine']
    exact BitVec.and_zero
  by_cases sign : s.machine.mem (routine.place base .buf 0) = 45
  · rw [if_pos sign] at pc₂
    obtain ⟨t₃, path₃, pc₃, machine₃, kept₃⟩ :=
      Routine.piece os (Buffer base) (both.mem ▸ loaded) pc₂
      [addImm 7 7 1] (by decide) rfl
    obtain ⟨t, path, pc', two, seven, kept⟩ := cleared ((path₁.trans path₂).trans path₃)
      (both.trans (kept₃.mono (by decide))) (pc₃.trans (routine.place_eq (by decide)))
    refine ⟨t, path, pc', two, ?_, kept⟩
    have on : routine.place base .buf 1 = routine.place base .buf 0 + 1 := (next_address _ _).symm
    rw [if_pos sign, seven, on, ← seven₁, ← kept₂.reg 7 (by decide), machine₃]
    rfl
  · rw [if_neg sign] at pc₂
    obtain ⟨t, path, pc', two, seven, kept⟩ := cleared (path₁.trans path₂) both pc₂
    refine ⟨t, path, pc', two, ?_, kept⟩
    rw [if_neg sign, seven, kept₂.reg 7 (by decide), seven₁]

variable (os) in
theorem sum_signed (loaded : routine.Loaded base s.machine.mem)
    (pc : s.pc = routine.place base .calcdone 0) :
    ∃ t, Path os (Buffer base) s t ∧ t.pc = routine.place base .notneg 0 ∧
      t.machine.reg 2 = (if s.machine.mem (routine.place base .buf 0) = 45 then -s.machine.reg 2
        else s.machine.reg 2) ∧ Kept [0, 1, 2] s t := by
  obtain ⟨t, path, pc', kept⟩ := sign_looked os .calcdone .notneg 0 loaded pc (by decide)
  by_cases sign : s.machine.mem (routine.place base .buf 0) = 45
  · rw [if_pos sign] at pc' ⊢
    obtain ⟨u, path', pc'', machine', kept'⟩ :=
      Routine.piece os (Buffer base) (kept.mem ▸ loaded) pc'
      [not 2 2, addImm 2 2 1] (by decide) rfl
    refine ⟨u, path.trans path', pc''.trans (routine.place_eq (by decide)), ?_,
      (kept.mono (by decide)).trans (kept'.mono (by decide))⟩
    rw [← kept.reg 2 (by decide), ← neg_word, machine']
    rfl
  · rw [if_neg sign] at pc' ⊢
    exact ⟨t, path, pc', kept.reg 2 (by decide), kept.mono (by decide)⟩

/-- The value of a number, up to the word where its last character stands. -/
def sumUpTo (base : Word) (mem : Word → Word) (last : Word) : Word :=
  if mem (routine.place base .buf 0) = 45 then
    -sumFrom mem (last - routine.place base .buf 1).toNat (routine.place base .buf 1) 0
  else sumFrom mem (last - routine.place base .buf 0).toNat (routine.place base .buf 0) 0

variable (os) in
/-- From the last character of a number to its value, whatever the buffer holds. -/
theorem valued (loaded : routine.Loaded base s.machine.mem)
    (pc : s.pc = routine.place base .numdone 0) :
    ∃ t, Path os (Buffer base) s t ∧ t.pc = routine.place base .notneg 0 ∧ Kept [0, 1, 2, 7] s t ∧
      t.machine.reg 2 = sumUpTo base s.machine.mem (s.machine.reg 4) := by
  obtain ⟨t₁, path₁, pc₁, two₁, seven₁, kept₁⟩ := sum_begun os loaded pc
  have last : t₁.machine.reg 4 = t₁.machine.reg 7 +
      BitVec.ofNat 16 (s.machine.reg 4 - t₁.machine.reg 7).toNat := by
    rw [kept₁.reg 4 (by decide), BitVec.ofNat_toNat, BitVec.setWidth_eq, BitVec.add_comm,
      BitVec.sub_add_cancel]
  obtain ⟨t₂, path₂, pc₂, two₂, kept₂⟩ :=
    summed os (BitVec.isLt _) (kept₁.mem ▸ loaded) pc₁ rfl two₁ last
  obtain ⟨t, path, pc', two, kept⟩ := sum_signed os (kept₂.mem ▸ kept₁.mem ▸ loaded) pc₂
  refine ⟨t, (path₁.trans path₂).trans path, pc', (kept₁.trans kept₂).trans
    (kept.mono (by decide)), ?_⟩
  rw [two, kept₂.mem, kept₁.mem, two₂, seven₁, kept₁.mem, sumUpTo]
  by_cases sign : s.machine.mem (routine.place base .buf 0) = 45
  · rw [if_pos sign, if_pos sign, if_pos sign]
  · rw [if_neg sign, if_neg sign, if_neg sign]

end

end LC3Tools.Stdio.Scanf
