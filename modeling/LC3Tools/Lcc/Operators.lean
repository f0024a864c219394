import LC3Tools.Lcc.Flow

/-! `prologue` and `epilogue` of the back end, which give an operation three different
registers to work in, and what such code leaves behind. -/
namespace LC3Tools.Emit
open StateTransition

/-- `INTTMP | INTRET`, the registers that are handed out. -/
def tmask : BitVec 32 := 0x8f

abbrev Temp := {r : Fin 8 // tmask.getLsbD r = true}

/-- What `prologue` returns through its pointers. -/
structure Allocation where
  x : Fin 8
  y : Fin 8
  z : Fin 8
  yflag : BitVec 32
  destflag : BitVec 32

/-- `(INTTMP | INTRET) & ~(1<<i | 1<<j)`. -/
def others (i j : Fin 8) : BitVec 32 := tmask &&& ~~~(1#32 <<< i.val ||| 1#32 <<< j.val)

/-- The first register of a mask. -/
def firstOf (mask : BitVec 32) : Option (Fin 8) :=
  (List.finRange 8).find? fun i => mask &&& 1#32 <<< i.val ≠ 0

/-- The loop for `y` says `*y++`, which moves the pointer and not the number: it stops at
R0 or reads behind the variable, and then nothing is defined. -/
def prologue (dest left right : Fin 8) : Option (List Line × Allocation) :=
  let yflag := others dest right
  let copied : Option (List Line × Fin 8 × BitVec 32) :=
    if left = right then
      if yflag &&& 1 ≠ 0 then some (push 0 ++ [.addimm 0 right 0], 0, 0) else none
    else some ([], left, yflag)
  copied.bind fun (lines, y, yflag) =>
    let destflag := others y right
    if dest ≠ y ∧ dest ≠ right then some (lines, ⟨dest, y, right, yflag, 0⟩)
    else (firstOf destflag).map fun x => (lines ++ push x, ⟨x, y, right, yflag, destflag⟩)

def epilogue (dest : Fin 8) (a : Allocation) : List Line :=
  (if a.destflag ≠ 0 then .addimm dest a.x 0 :: pop a.x else []) ++
    (if a.yflag = 0 then pop a.y else [])

/-- An operation on three different registers, in any allocation. -/
def emitBinary (core : Fin 8 → Fin 8 → Fin 8 → List Line) (dest left right : Fin 8) :
    Option (List Line) :=
  (prologue dest left right).map fun (lines, a) => lines ++ core a.x a.y a.z ++ epilogue dest a

/-! What such code leaves behind. -/

/-- One of the n words just below the stack pointer. -/
def Machine.Scratch (m : Machine) (n : Nat) (a : Word) : Prop :=
  ∃ k < n, a = m.reg 6 - BitVec.ofNat 16 (k + 1)

/-- Only these registers change, and n words below the stack pointer. -/
structure Changes (rs : List (Fin 8)) (n : Nat) (m m' : Machine) : Prop where
  kept : ∀ i, i ∉ rs → m'.reg i = m.reg i
  memory : ∀ a, ¬ m.Scratch n a → m'.mem a = m.mem a

/-- The code runs to its end and leaves the value in the destination. -/
def Computes (globals : String → Word) (code : List Line) (n : Nat) (dest : Fin 8) (v : Word)
    (m : Machine) : Prop :=
  ∃ m', Executes globals code m m' ∧ m'.reg dest = v ∧ Changes [dest] n m m'

/-- The register that a line writes. -/
def Line.dest : Line → Option (Fin 8)
  | .add i _ _ | .addimm i _ _ | .and i _ _ | .andimm i _ _ | .not i | .load i _ _
    | .lc3global _ i => some i
  | _ => none

/-- A plain line that does not store. -/
def Line.quiet : Line → Bool
  | .store .. => false
  | line => line.plain

section
variable {globals : String → Word} {m t m' : Machine} {rs : List (Fin 8)} {n : Nat}

namespace Changes

theorem refl (m : Machine) : Changes rs n m m := ⟨fun _ _ => rfl, fun _ _ => rfl⟩

theorem mono {qs : List (Fin 8)} {k : Nat} (changes : Changes rs n m m') (fewer : rs ⊆ qs)
    (more : n ≤ k) : Changes qs k m m' :=
  ⟨fun i away => changes.kept i fun mem => away (fewer mem), fun a free =>
    changes.memory a fun ⟨j, less, same⟩ => free ⟨j, Nat.lt_of_lt_of_le less more, same⟩⟩

theorem scratch {k : Nat} (changes : Changes rs n m t) (stack : 6 ∉ rs) (a : Word) :
    t.Scratch k a ↔ m.Scratch k a := by
  unfold Machine.Scratch
  rw [changes.kept 6 stack]

theorem trans (first : Changes rs n m t) (second : Changes rs n t m') (stack : 6 ∉ rs) :
    Changes rs n m m' := by
  refine ⟨fun i away => (second.kept i away).trans (first.kept i away), fun a free => ?_⟩
  rw [second.memory a fun inside => free ((first.scratch stack a).mp inside), first.memory a free]

theorem tested (r : Fin 8) : Changes rs n m (m.set r (m.reg r)) := by
  refine ⟨fun i _ => ?_, fun _ _ => rfl⟩
  rw [Machine.set_reg]
  split <;> rename_i same
  · rw [same]
  · rfl

end Changes

theorem run_test (r : Fin 8) : run globals [.addimm r r 0] m = m.set r (m.reg r) := by
  simp only [run_cons, run_nil, Line.effect, plus_zero]

theorem effect_changes (line : Line) (quiet : line.quiet) :
    Changes line.dest.toList 0 m (line.effect globals m) := by
  cases line with
  | store | lab | br | skip | ld | fill | jmp | jsrr => cases quiet
  | add i | addimm i | and i | andimm i | not i | load i | lc3global _ i =>
    exact ⟨fun k away => if_neg fun same => away (List.mem_singleton.mpr same), fun _ _ => rfl⟩

theorem run_changes {code : List Line} (quiet : code.all Line.quiet)
    (within : code.filterMap Line.dest ⊆ rs) (stack : 6 ∉ rs) :
      Changes rs 0 m (run globals code m) := by
  induction code generalizing m with
  | nil => exact .refl m
  | cons line code ih =>
    rw [List.all_cons, Bool.and_eq_true] at quiet
    have own : line.dest.toList ⊆ rs := by
      intro i mem
      apply within
      rw [List.mem_filterMap]
      exact ⟨line, List.mem_cons_self, Option.mem_toList.mp mem⟩
    have rest : code.filterMap Line.dest ⊆ rs := by
      intro i mem
      obtain ⟨other, inside, writes⟩ := List.mem_filterMap.mp mem
      exact within (List.mem_filterMap.mpr ⟨other, List.mem_cons_of_mem _ inside, writes⟩)
    exact ((effect_changes line quiet.1).mono own le_rfl).trans (ih quiet.2 rest) stack

theorem run_push (j : Fin 8) (other : j ≠ 6) :
    run globals (push j) m = (m.set 6 (m.reg 6 - 1)).write (m.reg 6 - 1) (m.reg j) := by
  simp only [push, run_cons, run_nil, Line.effect, Machine.set_same, minus_one, plus_zero,
    Machine.set_reg, if_neg other]

theorem run_pop (j : Fin 8) (other : j ≠ 6) :
    run globals (pop j) m = (m.set j (m.mem (m.reg 6))).set 6 (m.reg 6 + 1) := by
  simp only [pop, run_cons, run_nil, Line.effect, Machine.set_reg, if_neg other.symm, plus_zero]
  rfl

theorem push_keeps (j i : Fin 8) (other : j ≠ 6) (away : i ≠ 6) :
    (run globals (push j) m).reg i = m.reg i := by
  rw [run_push j other, Machine.write_reg, Machine.set_reg, if_neg away]

theorem push_stack (j : Fin 8) (other : j ≠ 6) : (run globals (push j) m).reg 6 = m.reg 6 - 1 := by
  rw [run_push j other, Machine.write_reg, Machine.set_same]

theorem push_memory (j : Fin 8) (other : j ≠ 6) (a : Word) :
    (run globals (push j) m).mem a = if a = m.reg 6 - 1 then m.reg j else m.mem a := by
  rw [run_push j other]
  rfl

theorem below_push {s : Word} (small : n < 2 ^ 16 - 1) :
    ¬ ∃ k < n, s - 1 = s - 1 - BitVec.ofNat 16 (k + 1) := by
  rintro ⟨k, less, same⟩
  bv_omega

theorem Executes.between {inner : List Line} {r : Fin 8} (other : r ≠ 6) (closed : Closed inner)
    (executes : Executes globals inner (run globals (push r) m) m')
    (bottom : m'.reg 6 = m.reg 6 - 1)
    (saved : m'.mem (m.reg 6 - 1) = m.reg r) :
    Executes globals (push r ++ inner ++ pop r) m ((m'.set r (m.reg r)).set 6 (m.reg 6)) := by
  have popped := @run_pop globals m' r other
  rw [bottom, saved, BitVec.sub_add_cancel] at popped
  rw [← popped]
  exact executes.wrap closed rfl rfl

theorem Executes.saving {inner : List Line} {r : Fin 8} (other : r ≠ 6) (stack : 6 ∉ rs)
    (small : n < 2 ^ 16 - 1) (closed : Closed inner)
    (executes : Executes globals inner (run globals (push r) m) m')
    (changes : Changes (r :: rs) n (run globals (push r) m) m') :
    ∃ m'', Executes globals (push r ++ inner ++ pop r) m m'' ∧ Changes rs (n + 1) m m'' ∧
      ∀ i, i ≠ r → i ≠ 6 → m''.reg i = m'.reg i := by
  have bottom : m'.reg 6 = m.reg 6 - 1 := by
    rw [changes.kept 6 (by simp [other.symm, stack]), run_push r other]
    rfl
  have saved : m'.mem (m.reg 6 - 1) = m.reg r := by
    rw [changes.memory, run_push r other, Machine.write_same]
    rw [run_push r other]
    exact below_push small
  refine ⟨_, executes.between other closed bottom saved, ⟨fun i away => ?_, fun a free => ?_⟩,
    fun i apart apart6 => ?_⟩
  · rw [Machine.set_reg, Machine.set_reg]
    split <;> rename_i six
    · rw [six]
    · split <;> rename_i same
      · rw [same]
      · rw [changes.kept i (by simp [same, away]), push_keeps r i other six]
  · rw [Machine.set_mem, Machine.set_mem, changes.memory a, run_push r other,
      Machine.write_mem, if_neg]
    · rfl
    · intro same
      exact free ⟨0, Nat.succ_pos n, same⟩
    · rw [run_push r other]
      rintro ⟨k, less, same⟩
      refine free ⟨k + 1, Nat.succ_lt_succ less, ?_⟩
      rw [same]
      simp only [Machine.write_reg, Machine.set_same]
      bv_omega
  · rw [Machine.set_reg, if_neg apart6, Machine.set_reg, if_neg apart]

theorem Computes.saved {inner : List Line} {r x : Fin 8} {v : Word} (other : r ≠ 6) (apart : x ≠ r)
    (apart6 : x ≠ 6) (small : n < 2 ^ 16 - 1) (closed : Closed inner)
    (executes : Executes globals inner (run globals (push r) m) m') (result : m'.reg x = v)
    (changes : Changes [r, x] n (run globals (push r) m) m') :
    Computes globals (push r ++ inner ++ pop r) (n + 1) x v m := by
  obtain ⟨m'', executes', changes', rest⟩ :=
    Executes.saving other (by simp [apart6.symm]) small closed executes changes
  exact ⟨m'', executes', (rest x apart apart6).trans result, changes'⟩

theorem Computes.mono {code : List Line} {x : Fin 8} {v : Word} {k : Nat}
    (computes : Computes globals code n x v m) (more : n ≤ k) : Computes globals code k x v m := by
  obtain ⟨m', executes, result, changes⟩ := computes
  exact ⟨m', executes, result, changes.mono (List.Subset.refl _) more⟩

theorem Computes.through {core : List Line} {x dest : Fin 8} {v : Word} (other : x ≠ 6)
    (apart : dest ≠ x) (apart6 : dest ≠ 6) (small : n < 2 ^ 16 - 1) (closed : Closed core)
    (computes : Computes globals core n x v (run globals (push x) m)) :
    Computes globals (push x ++ (core ++ [.addimm dest x 0]) ++ pop x) (n + 1) dest v m := by
  obtain ⟨u, executes, result, changes⟩ := computes
  have moved : Executes globals ([] ++ core ++ [.addimm dest x 0]) (run globals (push x) m)
      (run globals [.addimm dest x 0] u) :=
    Executes.wrap executes closed rfl rfl
  have stack : 6 ∉ [x, dest] := by simp [other.symm, apart6.symm]
  have move : Changes [x, dest] n u (run globals [.addimm dest x 0] u) :=
    (run_changes rfl (by simp [Line.dest]) stack).mono (List.Subset.refl _) (Nat.zero_le n)
  refine Computes.saved other apart apart6 small (closed.append (closed_of_plain rfl)) moved ?_
    ((changes.mono (by simp) le_rfl).trans move stack)
  simp only [run_cons, run_nil, Line.effect, Machine.set_same, plus_zero, result]

theorem Computes.copied {inner : List Line} {r z dest : Fin 8} {v : Word} (other : r ≠ 6)
    (apart : dest ≠ r) (apart6 : dest ≠ 6) (small : n < 2 ^ 16 - 1) (closed : Closed inner)
    (computes : Computes globals inner n dest v (run globals (push r ++ [.addimm r z 0]) m)) :
    Computes globals (push r ++ ([.addimm r z 0] ++ inner) ++ pop r) (n + 1) dest v m := by
  obtain ⟨u, executes, result, changes⟩ := computes
  rw [run_append] at executes changes
  have started : Executes globals ([.addimm r z 0] ++ inner ++ []) (run globals (push r) m) u :=
    Executes.wrap executes closed rfl rfl
  rw [List.append_nil] at started
  have stack : 6 ∉ [r, dest] := by simp [other.symm, apart6.symm]
  have copy : Changes [r, dest] n (run globals (push r) m)
      (run globals [.addimm r z 0] (run globals (push r) m)) :=
    (run_changes rfl (by simp [Line.dest]) stack).mono (List.Subset.refl _) (Nat.zero_le n)
  exact Computes.saved other apart apart6 small ((closed_of_plain rfl).append closed) started result
    (copy.trans (changes.mono (by simp) le_rfl) stack)

end

/-- Code for a function of two registers, in any three different registers. -/
structure Works (core : Fin 8 → Fin 8 → Fin 8 → List Line) (n : Nat) (ok : Word → Word → Prop)
    (f : Word → Word → Word) : Prop where
  closed : ∀ x y z, Closed (core x y z)
  computes : ∀ globals x y z (m : Machine), x ≠ y → x ≠ z → y ≠ z → x ≠ 6 → y ≠ 6 → z ≠ 6 →
    ok (m.reg y) (m.reg z) → Computes globals (core x y z) n x (f (m.reg y) (m.reg z)) m

section
variable {d l r : Fin 8}

theorem others_nonzero : ∀ i j : Fin 8, others i j ≠ 0#32 := by decide +kernel

theorem firstOf_others : ∀ i j : Fin 8, ∃ x, firstOf (others i j) = some x ∧ x ≠ i ∧ x ≠ j ∧
    x ≠ 6 := by
  decide +kernel

theorem others_free : ∀ d r : Fin 8, others d r &&& 1 ≠ 0 ↔ d ≠ 0 ∧ r ≠ 0 := by decide +kernel

theorem prologue_distinct (d : Fin 8) (different : l ≠ r) :
    (d ≠ l ∧ d ≠ r ∧ prologue d l r = some ([], ⟨d, l, r, others d r, 0⟩)) ∨
    ((d = l ∨ d = r) ∧ ∃ x, x ≠ l ∧ x ≠ r ∧ x ≠ 6 ∧
      prologue d l r = some (push x, ⟨x, l, r, others d r, others l r⟩)) := by
  unfold prologue
  simp only [if_neg different, Option.bind_some]
  by_cases free : d ≠ l ∧ d ≠ r
  · exact .inl ⟨free.1, free.2, by rw [if_pos free]⟩
  · obtain ⟨x, first, hl, hr, h6⟩ := firstOf_others l r
    refine .inr ⟨by tauto, x, hl, hr, h6, ?_⟩
    rw [if_neg free, first]
    rfl

theorem prologue_same (d : Fin 8) (away : d ≠ 0 ∧ r ≠ 0) :
    (d ≠ r ∧ prologue d r r = some (push 0 ++ [.addimm 0 r 0], ⟨d, 0, r, 0, 0⟩)) ∨
    (d = r ∧ ∃ x, x ≠ 0 ∧ x ≠ r ∧ x ≠ 6 ∧
      prologue d r r = some (push 0 ++ [.addimm 0 r 0] ++ push x, ⟨x, 0, r, 0, others 0 r⟩)) := by
  unfold prologue
  simp only [if_pos ((others_free d r).mpr away), Option.bind_some, if_true]
  by_cases free : d = r
  · obtain ⟨x, first, h0, hr, h6⟩ := firstOf_others 0 r
    refine .inr ⟨free, x, h0, hr, h6, ?_⟩
    rw [if_neg (fun h => h.2 free), first]
    rfl
  · exact .inl ⟨free, by rw [if_pos ⟨away.1, free⟩]⟩

theorem prologue_undefined (taken : d = 0 ∨ r = 0) : prologue d r r = none := by
  have busy : ¬ others d r &&& 1 ≠ 0 := by
    rw [others_free]
    tauto
  unfold prologue
  simp only [if_true, if_neg busy, Option.bind_none]

end

theorem Temp.not_stack (t : Temp) : t.1 ≠ 6 := by
  rintro h
  have bit := t.2
  rw [h] at bit
  exact absurd bit (by decide)

section
variable (globals : String → Word) (m : Machine)

theorem copy_value (r : Fin 8) (stack : r ≠ 6) :
    (run globals (push 0 ++ [.addimm 0 r 0]) m).reg 0 = m.reg r := by
  rw [run_append]
  simp only [run_cons, run_nil, Line.effect, Machine.set_same]
  rw [push_keeps 0 r (by decide) stack]
  exact BitVec.add_zero _

theorem copy_keeps (i r : Fin 8) (away6 : i ≠ 6) (away0 : i ≠ 0) :
    (run globals (push 0 ++ [.addimm 0 r 0]) m).reg i = m.reg i := by
  rw [run_append]
  simp only [run_cons, run_nil, Line.effect, Machine.set_reg, if_neg away0]
  exact push_keeps 0 i (by decide) away6

end

theorem emitBinary_works {core : Fin 8 → Fin 8 → Fin 8 → List Line} {n : Nat}
    {ok : Word → Word → Prop} {f : Word → Word → Word} (works : Works core n ok f)
    (small : n + 1 < 2 ^ 16 - 1) (dest left right : Temp)
    (defined : ¬ (left = right ∧ (dest.1 = 0 ∨ left.1 = 0))) :
    ∃ code, emitBinary core dest left right = some code ∧
      ∀ globals (m : Machine), ok (m.reg left) (m.reg right) →
        Computes globals code (n + 2) dest (f (m.reg left) (m.reg right)) m := by
  obtain ⟨d, hd⟩ := dest
  obtain ⟨l, hl⟩ := left
  obtain ⟨r, hr⟩ := right
  have d6 : d ≠ 6 := Temp.not_stack ⟨d, hd⟩
  have l6 : l ≠ 6 := Temp.not_stack ⟨l, hl⟩
  have r6 : r ≠ 6 := Temp.not_stack ⟨r, hr⟩
  simp only [Subtype.mk.injEq] at defined
  unfold emitBinary
  by_cases different : l ≠ r
  · rcases prologue_distinct d different with ⟨dl, dr, called⟩ | ⟨taken, x, xl, xr, x6, called⟩
    · refine ⟨core d l r, ?_, fun globals m fine => ?_⟩
      · simp [called, epilogue, others_nonzero]
      · exact (works.computes globals d l r m dl dr different d6 l6 r6 fine).mono (by omega)
    · refine ⟨push x ++ (core x l r ++ [.addimm d x 0]) ++ pop x, ?_, fun globals m fine => ?_⟩
      · simp [called, epilogue, others_nonzero]
      · have dx : d ≠ x := by
          rcases taken with h | h <;> rw [h]
          · exact xl.symm
          · exact xr.symm
        have left : (run globals (push x) m).reg l = m.reg l := push_keeps x l x6 l6
        have right : (run globals (push x) m).reg r = m.reg r := push_keeps x r x6 r6
        have inside := works.computes globals x l r
          (run globals (push x) m) xl xr different x6 l6 r6
        rw [left, right] at inside
        exact (Computes.through x6 dx d6 (by omega) (works.closed x l r) (inside fine)).mono
          (by omega)
  · rw [ne_eq, not_not] at different
    subst different
    have away : d ≠ 0 ∧ l ≠ 0 := by tauto
    rcases prologue_same d away with ⟨dl, called⟩ | ⟨same, x, x0, xl, x6, called⟩
    · refine ⟨push 0 ++ ([.addimm 0 l 0] ++ core d 0 l) ++ pop 0, ?_, fun globals m fine => ?_⟩
      · simp [called, epilogue]
      · have inside := works.computes globals d 0 l (run globals (push 0 ++ [.addimm 0 l 0]) m)
          away.1 dl away.2.symm d6 (by decide) l6
        rw [copy_value globals m l l6, copy_keeps globals m l l l6 away.2] at inside
        exact (Computes.copied (by decide) away.1 d6 (by omega) (works.closed d 0 l)
          (inside fine)).mono (by omega)
    · subst same
      have moved : Closed (push x ++ (core x 0 d ++ [.addimm d x 0]) ++ pop x) := by
        intro a b c i mem
        simp only [push, pop, List.mem_append, List.mem_cons, List.not_mem_nil, or_false,
          reduceCtorEq,
          false_or] at mem ⊢
        exact works.closed x 0 d a b c i mem
      refine ⟨push 0 ++ ([.addimm 0 d 0] ++ (push x ++ (core x 0 d ++ [.addimm d x 0]) ++ pop x)) ++
        pop 0,
        ?_, fun globals m fine => ?_⟩
      · simp [called, epilogue, others_nonzero]
      · have first := copy_value globals m d d6
        have second := copy_keeps globals m d d d6 away.2
        generalize copied : run globals (push 0 ++ [.addimm 0 d 0]) m = t at first second
        have inside := works.computes globals x 0 d (run globals (push x) t) x0 xl away.2.symm x6
          (by decide) l6
        rw [push_keeps x 0 x6 (by decide), push_keeps x d x6 d6, first, second] at inside
        have inner := Computes.through x6 xl.symm d6 (by omega) (works.closed x 0 d) (inside fine)
        rw [← copied] at inner
        exact Computes.copied (by decide) away.1 d6 small moved inner

theorem Computes.unique {globals : String → Word} {code : List Line} {k n : Nat} {dest : Fin 8}
    {v w : Word}
    {m : Machine} (computes : Computes globals code k dest v m)
    (computes' : Computes globals code n dest w m) :
    v = w := by
  obtain ⟨t, executes, result, -⟩ := computes
  obtain ⟨t', executes', result', -⟩ := computes'
  have same := congrArg Prod.snd (executes.unique executes')
  rw [← result, ← result', show t = t' from same]

/-- Operands in two different registers: the code computes what the operation does, and
nothing else. -/
theorem emitBinary_computes_iff {core : Fin 8 → Fin 8 → Fin 8 → List Line} {n : Nat}
    {ok : Word → Word → Prop} {f : Word → Word → Word} (works : Works core n ok f)
    (small : n + 1 < 2 ^ 16 - 1) (dest left right : Temp) (different : left ≠ right) {a b : Word}
    (fine : ok a b) (v : Word) :
    (∃ code, emitBinary core dest left right = some code ∧ ∀ globals (m : Machine),
      m.reg left = a → m.reg right = b → Computes globals code (n + 2) dest v m) ↔ f a b = v := by
  obtain ⟨code, emitted, computes⟩ := emitBinary_works works small dest left right
    fun taken => different taken.1
  constructor
  · rintro ⟨code', emitted', computes'⟩
    cases emitted.symm.trans emitted'
    have apart : left.1 ≠ right.1 := fun same => different (Subtype.ext same)
    have onLeft : (⟨fun i => if i = left then a else b, fun _ => 0, 0⟩ : Machine).reg left = a :=
      if_pos rfl
    have onRight : (⟨fun i => if i = left then a else b, fun _ => 0, 0⟩ : Machine).reg right = b :=
      if_neg apart.symm
    have computed := computes (fun _ => 0) ⟨fun i => if i = left then a else b, fun _ => 0, 0⟩
    rw [onLeft, onRight] at computed
    exact (computed fine).unique (computes' (fun _ => 0) _ onLeft onRight)
  · rintro rfl
    refine ⟨code, emitted, fun globals m onLeft onRight => ?_⟩
    have computed := computes globals m
    rw [onLeft, onRight] at computed
    exact computed fine

end LC3Tools.Emit
