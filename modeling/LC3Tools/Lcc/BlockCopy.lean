import LC3Tools.WordArray
import LC3Tools.Lcc.Constants

/-! Copying a structure: `blkloop` of `lc3.md` and the two cases of `emit2` that use it,
an assignment from the address in R0 to the one in R1, and an argument that is pushed. -/
namespace LC3Tools.Emit

/-- `for(; off>15; off-=15) lc3_addimm(reg,reg,15);` and the offset that is left. -/
def climb (reg : Fin 8) (off : Int) : List Line × Int :=
  if 15 < off then
    let (lines, off') := climb reg (off - 15)
    (.addimm reg reg 15 :: lines, off')
  else ([], off)
termination_by off.toNat

/-- `for(; off<-16; off+=16) lc3_addimm(reg,reg,-16);` -/
def descend (reg : Fin 8) (off : Int) : List Line × Int :=
  if off < -16 then
    let (lines, off') := descend reg (off + 16)
    (.addimm reg reg (-16) :: lines, off')
  else ([], off)
termination_by (-off).toNat

/-- The label is the one that `genlabel(1)` returns. -/
def blkloop (label : Nat) (dreg : Fin 8) (doff : Int) (sreg : Fin 8) (soff : Int) (size : Nat)
    (tmp count : Fin 8) : List Line :=
  let (raiseSource, soff) := climb sreg soff
  let (lowerSource, soff) := descend sreg soff
  let (raiseDest, doff) := climb dreg doff
  let (lowerDest, doff) := descend dreg doff
  raiseSource ++ lowerSource ++ raiseDest ++ lowerDest ++
    [.andimm count count 0] ++ addimms count count 15 1 size ++
    [.lab label, .load tmp sreg soff, .store tmp dreg doff, .addimm sreg sreg 1,
      .addimm dreg dreg 1, .addimm count count (-1), .br true false true label]

/-- The ASGN+B case. -/
def asgnB (label size : Nat) : List Line :=
  push 2 ++ push 3 ++ blkloop label 1 0 0 0 size 2 3 ++ pop 3 ++ pop 2

/-- The ARG+B case. -/
def argB (label size : Nat) : List Line :=
  addimms 6 6 16 (-1) size ++ push 1 ++ push 2 ++ push 3 ++ [.addimm 1 6 3] ++
    blkloop label 1 0 0 0 size 2 3 ++ pop 3 ++ pop 2 ++ pop 1

/-- The n words from an address on. -/
def Block (a : Word) (n : Nat) (b : Word) : Prop := (b - a).toNat < n

/-- Memory with n words copied from one address to another. -/
def copied (mem : Word → Word) (source dest : Word) (n : Nat) : Word → Word :=
  storedFrom mem (fun k => mem (source + BitVec.ofNat 16 k)) dest n

section
variable {mem : Word → Word} {source dest a : Word} {n k : Nat}

theorem block_at (less : k < n) (small : n ≤ 2 ^ 16) : Block a n (a + BitVec.ofNat 16 k) := by
  rw [Block, offset_from (by omega)]
  exact less

theorem copied_at (less : k < n) (small : n ≤ 2 ^ 16) :
    copied mem source dest n (dest + BitVec.ofNat 16 k) = mem (source + BitVec.ofNat 16 k) :=
  storedFrom_at less (by omega)

theorem copied_outside (outside : ¬ Block dest n a) : copied mem source dest n a = mem a :=
  storedFrom_outside outside

theorem copied_succ (small : k < 2 ^ 16) (apart : ¬ Block dest k (source + BitVec.ofNat 16 k)) :
    (fun a => if a = dest + BitVec.ofNat 16 k then copied mem source dest k
      (source + BitVec.ofNat 16 k)
      else copied mem source dest k a) = copied mem source dest (k + 1) := by
  rw [copied_outside apart]
  exact storedFrom_succ small

theorem block_small (apart : ∀ a, Block source n a → ¬ Block dest n a) : n < 2 ^ 16 := by
  by_contra large
  have inside := (source - source).isLt
  have inside' := (source - dest).isLt
  exact apart source (by unfold Block; omega) (by unfold Block; omega)

end

/-- The state when k words are copied and j are left. -/
structure Copying (p : Machine) (k j : Nat) (s : Machine) : Prop where
  source : s.reg 0 = p.reg 0 + BitVec.ofNat 16 k
  dest : s.reg 1 = p.reg 1 + BitVec.ofNat 16 k
  count : s.reg 3 = BitVec.ofNat 16 j
  kept : ∀ i, i ≠ 0 → i ≠ 1 → i ≠ 2 → i ≠ 3 → s.reg i = p.reg i
  memory : s.mem = copied p.mem (p.reg 0) (p.reg 1) k

section
variable {globals : String → Word} {label n : Nat} {p s m : Machine}

theorem climb_zero (reg : Fin 8) : climb reg 0 = ([], 0) := by
  rw [climb, if_neg (by decide)]

theorem descend_zero (reg : Fin 8) : descend reg 0 = ([], 0) := by
  rw [descend, if_neg (by decide)]

/-- What the loop repeats in front of the counter. -/
def copyWord : List Line := [.load 2 0 0, .store 2 1 0, .addimm 0 0 1, .addimm 1 1 1]

theorem blkloop_eq (label size : Nat) : blkloop label 1 0 0 0 size 2 3 =
    [.andimm 3 3 0] ++ addimms 3 3 15 1 size ++
      loop label (copyWord ++ [.addimm 3 3 (-1)]) true false true := by
  simp only [blkloop, climb_zero, descend_zero, List.nil_append]
  rfl

theorem copying_word {k j : Nat} (small : k < 2 ^ 16)
    (apart : ¬ Block (p.reg 1) k (p.reg 0 + BitVec.ofNat 16 k)) (state : Copying p k (j + 1) s) :
    Copying p (k + 1) j (run globals (copyWord ++ [.addimm 3 3 (-1)]) s) := by
  have next (a : Word) : a + BitVec.ofNat 16 k + 1 = a + BitVec.ofNat 16 (k + 1) := by
    rw [BitVec.ofNat_add, BitVec.add_assoc]
    rfl
  have final : run globals (copyWord ++ [.addimm 3 3 (-1)]) s =
      ((((s.set 2 (s.mem (s.reg 0))).write (s.reg 1) (s.mem (s.reg 0))).set 0 (s.reg 0 + 1)).set 1
        (s.reg 1 + 1)).set 3 (s.reg 3 - 1) := by
    simp only [copyWord, List.cons_append, List.nil_append, run_cons, run_nil, Line.effect,
      Machine.set_same,
      plus_zero, Machine.set_reg, Machine.write_reg, minus_one]
    rfl
  rw [final]
  refine ⟨?_, ?_, ?_, fun i h0 h1 h2 h3 => ?_, ?_⟩
  · rw [Machine.set_reg, if_neg (by decide), Machine.set_reg, if_neg (by decide), Machine.set_same,
      state.source, next]
  · rw [Machine.set_reg, if_neg (by decide), Machine.set_same, state.dest, next]
  · rw [Machine.set_same, state.count, ofNat_pred]
  · simp only [Machine.set_reg, Machine.write_reg, if_neg h0, if_neg h1, if_neg h2, if_neg h3]
    exact state.kept i h0 h1 h2 h3
  · rw [← copied_succ small apart, ← state.memory, ← state.source, ← state.dest]
    simp only [Machine.set_mem]
    funext a
    exact Machine.write_mem ..

theorem blkloop_closed (label size : Nat) : Closed (blkloop label 1 0 0 0 size 2 3) := by
  rw [blkloop_eq]
  exact ((closed_of_plain rfl).append (closed_of_plain (addimms_plain ..))).append
    (closed_loop (closed_of_plain rfl))

variable (globals) in
theorem blkloop_runs (label : Nat) (positive : 0 < n)
    (apart : ∀ a, Block (p.reg 0) n a → ¬ Block (p.reg 1) n a) :
    ∃ t, Executes globals (blkloop label 1 0 0 0 n 2 3) p t ∧ Copying p n 0 t := by
  have small := block_small apart
  have counted : run globals ([.andimm 3 3 0] ++ addimms 3 3 15 1 n) p = p.set 3
    (BitVec.ofNat 16 n) := by
    rw [run_append, run_addimms]
    simp only [run_cons, run_nil, Line.effect, Machine.set_same, Machine.set_set, Int.one_mul]
    congr 1
    rw [BitVec.ofInt_natCast]
    exact (congrArg (· + _) BitVec.and_zero).trans (BitVec.zero_add _)
  have start : Copying p 0 n (p.set 3 (BitVec.ofNat 16 n)) := by
    refine ⟨?_, ?_, Machine.set_same .., fun i _ _ _ h3 => if_neg h3, rfl⟩
    · exact (BitVec.add_zero _).symm
    · exact (BitVec.add_zero _).symm
  obtain ⟨t, executes, k, whole, final⟩ := loop_countdown globals (i := label) (r := 3) copyWord rfl
    (fun j s => ∃ k, k + j = n ∧ Copying p k j s) (by
      rintro j s ⟨_, _, state⟩
      exact state.count)
    (by
      rintro j s ⟨k, whole, state⟩
      have here : Block (p.reg 0) n (p.reg 0 + BitVec.ofNat 16 k) := block_at (by omega) small.le
      refine ⟨k + 1, by omega, copying_word (by omega) (fun inside => apart _ here ?_) state⟩
      exact Nat.lt_of_lt_of_le inside (by omega)) (n - 1) (by omega)
    ⟨0, by omega, by rwa [Nat.sub_add_cancel positive]⟩
  cases whole
  rw [blkloop_eq]
  refine ⟨t, Executes.after ?_ (counted ▸ executes) (closed_loop (closed_of_plain rfl)), final⟩
  rw [List.all_append, addimms_plain]
  rfl

/-- What the code of an assignment does. -/
structure AssignsBlock (globals : String → Word) (label n : Nat) (m : Machine) : Prop where
  fits : ∀ line ∈ asgnB label n, line.Fits
  runs : ∃ m', Executes globals (asgnB label n) m m' ∧
    (∀ k < n, m'.mem (m.reg 1 + BitVec.ofNat 16 k) = m.mem (m.reg 0 + BitVec.ofNat 16 k)) ∧
    (∀ a, ¬ Block (m.reg 1) n a → ¬ m.Scratch 2 a → m'.mem a = m.mem a) ∧
    ∀ i, i ≠ 0 → i ≠ 1 → m'.reg i = m.reg i

theorem blkloop_fits (positive : 0 < n) : ∀ line ∈ blkloop label 1 0 0 0 n 2 3, line.Fits := by
  have counter : ∀ line ∈ addimms 3 3 15 1 n, line.Fits := addimms_fits_up 3 3 (by omega)
  rw [blkloop_eq]
  intro line mem
  simp only [loop, copyWord, List.mem_append, List.mem_cons, List.not_mem_nil, or_false] at mem
  rcases mem with (rfl | mem) | rfl | ((rfl | rfl | rfl | rfl) | rfl) | rfl
  case inl.inr => exact counter line mem
  all_goals simp [Line.Fits]

theorem push_fits (j : Fin 8) : ∀ line ∈ push j, line.Fits := by
  simp [push, Line.Fits]

theorem pop_fits (j : Fin 8) : ∀ line ∈ pop j, line.Fits := by
  simp [pop, Line.Fits]

theorem scratch_iff {a : Word} (small : n ≤ 2 ^ 16) : m.Scratch n a ↔
    (m.reg 6 - a - 1).toNat < n := by
  constructor
  · rintro ⟨k, less, rfl⟩
    bv_omega
  · intro near
    exact ⟨(m.reg 6 - a - 1).toNat, near, by bv_omega⟩

theorem pushed_two (i : Fin 8) (away : i ≠ 6) :
    (run globals (push 2 ++ push 3) m).reg i = m.reg i := by
  rw [run_append, push_keeps 3 i (by decide) away, push_keeps 2 i (by decide) away]

theorem pushed_two_stack : (run globals (push 2 ++ push 3) m).reg 6 = m.reg 6 - 2 := by
  rw [run_append, push_stack 3 (by decide), push_stack 2 (by decide), BitVec.sub_sub]
  rfl

theorem pushed_two_memory (a : Word) : (run globals (push 2 ++ push 3) m).mem a =
    if a = m.reg 6 - 2 then m.reg 3 else if a = m.reg 6 - 1 then m.reg 2 else m.mem a := by
  have two : m.reg 6 - 1 - 1 = m.reg 6 - 2 := BitVec.sub_sub ..
  rw [run_append, push_memory 3 (by decide), push_memory 2 (by decide), push_stack 2 (by decide),
    push_keeps 2 3 (by decide) (by decide), two]

theorem pushed_two_away {a : Word} (free : ¬ m.Scratch 2 a) :
    (run globals (push 2 ++ push 3) m).mem a = m.mem a := by
  rw [scratch_iff (by decide)] at free
  rw [pushed_two_memory, if_neg, if_neg]
  all_goals
    rintro rfl
    bv_omega

theorem Executes.saving_two {core : List Line} {t : Machine} (closed : Closed core)
    (executes : Executes globals core (run globals (push 2 ++ push 3) m) t)
    (stack : t.reg 6 = m.reg 6 - 2)
    (saved : ∀ a, m.Scratch 2 a → t.mem a = (run globals (push 2 ++ push 3) m).mem a) :
    ∃ v, Executes globals (push 2 ++ push 3 ++ core ++ pop 3 ++ pop 2) m v ∧ v.mem = t.mem ∧
      ∀ i, v.reg i = if i = 2 ∨ i = 3 ∨ i = 6 then m.reg i else t.reg i := by
  have two : m.reg 6 - 1 - 1 = m.reg 6 - 2 := BitVec.sub_sub ..
  have below : m.reg 6 - 1 ≠ m.reg 6 - 2 := by bv_omega
  have first := saved (m.reg 6 - 1) ⟨0, by decide, rfl⟩
  have second := saved (m.reg 6 - 2) ⟨1, by decide, rfl⟩
  rw [pushed_two_memory, if_neg below, if_pos rfl] at first
  rw [pushed_two_memory, if_pos rfl] at second
  rw [run_append] at executes
  have stacked : (run globals (push 2) m).reg 6 = m.reg 6 - 1 := push_stack 2 (by decide)
  have three : (run globals (push 2) m).reg 3 = m.reg 3 := push_keeps 2 3 (by decide) (by decide)
  have inner := Executes.between (m := run globals (push 2) m) (r := 3) (by decide) closed executes
    (by rw [stacked, two, stack]) (by rw [stacked, two, second, three])
  have closed₃ : Closed (push 3 ++ core ++ pop 3) :=
    ((closed_of_plain rfl).append closed).append (closed_of_plain rfl)
  have outer := Executes.between (r := 2) (by decide) closed₃ inner
    (by rw [Machine.set_same, stacked]) first
  simp only [List.append_assoc] at outer ⊢
  refine ⟨_, outer, rfl, fun i => ?_⟩
  rw [three, Machine.set_reg, Machine.set_reg, Machine.set_reg, Machine.set_reg]
  by_cases h6 : i = 6
  · simp [h6]
  · by_cases h2 : i = 2
    · simp [h2]
    · by_cases h3 : i = 3 <;> simp [h6, h2, h3]

theorem asgnB_copies (label : Nat) (positive : 0 < n)
    (apart : ∀ a, Block (m.reg 0) n a → ¬ Block (m.reg 1) n a)
    (source : ∀ a, Block (m.reg 0) n a → ¬ m.Scratch 2 a)
    (dest : ∀ a, Block (m.reg 1) n a → ¬ m.Scratch 2 a) :
    AssignsBlock globals label n m := by
  have small := block_small apart
  refine ⟨?_, ?_⟩
  · have loops : ∀ line ∈ blkloop label 1 0 0 0 n 2 3, line.Fits := blkloop_fits positive
    intro line mem
    simp only [asgnB, List.mem_append] at mem
    rcases mem with (((mem | mem) | mem) | mem) | mem
    · exact push_fits 2 line mem
    · exact push_fits 3 line mem
    · exact loops line mem
    · exact pop_fits 3 line mem
    · exact pop_fits 2 line mem
  have source₀ : (run globals (push 2 ++ push 3) m).reg 0 = m.reg 0 := pushed_two 0 (by decide)
  have dest₀ : (run globals (push 2 ++ push 3) m).reg 1 = m.reg 1 := pushed_two 1 (by decide)
  obtain ⟨t, executes, state⟩ := blkloop_runs globals label
    (p := run globals (push 2 ++ push 3) m) positive (by rwa [source₀, dest₀])
  have memory := state.memory
  rw [source₀, dest₀] at memory
  obtain ⟨v, whole, same, registers⟩ := executes.saving_two (blkloop_closed label n)
    ((state.kept 6 (by decide) (by decide) (by decide) (by decide)).trans pushed_two_stack)
      fun a inside => by
      rw [memory, copied_outside fun block => dest a block inside]
  refine ⟨v, whole, fun k less => ?_, fun a outside free => ?_, fun i h0 h1 => ?_⟩
  · rw [same, memory, copied_at less small.le, pushed_two_away (source _ (block_at less small.le))]
  · rw [same, memory, copied_outside outside, pushed_two_away free]
  · rw [registers]
    split <;> rename_i saved
    · rfl
    · push Not at saved
      rw [state.kept i h0 h1 saved.1 saved.2.1, pushed_two i saved.2.2]

/-- What the code of an argument does. -/
structure PassesBlock (globals : String → Word) (label n : Nat) (m : Machine) : Prop where
  fits : ∀ line ∈ argB label n, line.Fits
  runs : ∃ m', Executes globals (argB label n) m m' ∧ m'.reg 6 = m.reg 6 - BitVec.ofNat 16 n ∧
    (∀ k < n, m'.mem (m'.reg 6 + BitVec.ofNat 16 k) = m.mem (m.reg 0 + BitVec.ofNat 16 k)) ∧
    (∀ a, ¬ m.Scratch (n + 3) a → m'.mem a = m.mem a) ∧ ∀ i, i ≠ 0 → i ≠ 6 → m'.reg i = m.reg i

theorem argB_small (positive : 0 < n) (source : ∀ a, Block (m.reg 0) n a → ¬ m.Scratch (n + 3) a) :
    n + 3 < 2 ^ 16 := by
  by_contra large
  have here : Block (m.reg 0) n (m.reg 0 + BitVec.ofNat 16 0) := by
    unfold Block
    simpa using positive
  exact source _ here ⟨(m.reg 6 - (m.reg 0 + BitVec.ofNat 16 0) - 1).toNat, by omega, by bv_omega⟩

theorem argB_fits (label : Nat) (positive : 0 < n) : ∀ line ∈ argB label n, line.Fits := by
  have loops : ∀ line ∈ blkloop label 1 0 0 0 n 2 3, line.Fits := blkloop_fits positive
  have down : ∀ line ∈ addimms 6 6 16 (-1) n, line.Fits := addimms_fits_down 6 6 (by omega)
  intro line mem
  simp only [argB, List.mem_append] at mem
  rcases mem with (((((((mem | mem) | mem) | mem) | mem) | mem) | mem) | mem) | mem
  · exact down line mem
  · exact push_fits 1 line mem
  · exact push_fits 2 line mem
  · exact push_fits 3 line mem
  · cases List.mem_singleton.mp mem
    exact ⟨by decide, by decide⟩
  · exact loops line mem
  · exact pop_fits 3 line mem
  · exact pop_fits 2 line mem
  · exact pop_fits 1 line mem

theorem area_scratch (small : n + 3 < 2 ^ 16) {a : Word}
    (block : Block (m.reg 6 - BitVec.ofNat 16 n) n a) :
    m.Scratch (n + 3) a := by
  rw [scratch_iff small.le]
  unfold Block at block
  bv_omega


theorem argB_area (globals : String → Word) : ∃ q, run globals (addimms 6 6 16 (-1) n) m = q ∧
    q.reg 6 = m.reg 6 - BitVec.ofNat 16 n ∧
    (∀ i, i ≠ 6 → q.reg i = m.reg i) ∧ q.mem = m.mem := by
  refine ⟨_, run_addimms .., ?_, fun i away => if_neg away, rfl⟩
  rw [Machine.set_same, Int.neg_one_mul, BitVec.ofInt_neg, BitVec.ofInt_natCast,
    BitVec.sub_eq_add_neg]

theorem skip_pushed (a : Word) : a - 1 - 2 + BitVec.ofInt 16 3 = a := by
  have three : BitVec.ofInt 16 3 = 3#16 := rfl
  bv_omega

theorem scratch_pushed {a b : Word} (small : n + 3 < 2 ^ 16)
    (bottom : b = m.reg 6 - BitVec.ofNat 16 n)
    (free : ¬ m.Scratch (n + 3) a) : a ≠ b - 1 ∧ ¬ (b - 1 - a - 1).toNat < 2 := by
  rw [scratch_iff small.le] at free
  constructor
  · rintro rfl
    bv_omega
  · bv_omega

theorem pushed_outside {a b : Word} (small : n + 3 < 2 ^ 16)
    (pushed : (b - 1 - a - 1).toNat < 2 ∨ a = b - 1) :
    ¬ Block b n a := by
  unfold Block
  rcases pushed with near | rfl
  · bv_omega
  · bv_omega

theorem argB_copies (label : Nat) (positive : 0 < n)
    (source : ∀ a, Block (m.reg 0) n a → ¬ m.Scratch (n + 3) a) :
      PassesBlock globals label n m := by
  have small := argB_small positive source
  refine ⟨argB_fits label positive, ?_⟩
  obtain ⟨q, area, bottom, kept, memory⟩ := argB_area (n := n) (m := m) globals
  generalize first : run globals (push 1) q = r
  have stack : r.reg 6 = q.reg 6 - 1 := first ▸ push_stack 1 (by decide)
  have kept' (i : Fin 8) (away : i ≠ 6) : r.reg i = q.reg i :=
    first ▸ push_keeps 1 i (by decide) away
  have memory' (a : Word) : r.mem a = if a = q.reg 6 - 1 then q.reg 1 else q.mem a :=
    first ▸ push_memory 1 (by decide) a
  generalize second : run globals (push 2 ++ push 3) r = p
  have stack' : p.reg 6 = r.reg 6 - 2 := second ▸ pushed_two_stack
  have kept'' (i : Fin 8) (away : i ≠ 6) : p.reg i = r.reg i := second ▸ pushed_two i away
  have memory'' {a : Word} (free : ¬ r.Scratch 2 a) : p.mem a = r.mem a :=
    second ▸ pushed_two_away free
  -- the destination is the area
  have address : run globals [.addimm 1 6 3] p = p.set 1 (q.reg 6) := by
    rw [run_cons, run_nil, Line.effect, stack', stack, skip_pushed]
  have source₁ : (p.set 1 (q.reg 6)).reg 0 = m.reg 0 := by
    rw [Machine.set_reg, if_neg (by decide), kept'' 0 (by decide), kept' 0 (by decide),
      kept 0 (by decide)]
  have dest₁ : (p.set 1 (q.reg 6)).reg 1 = q.reg 6 := Machine.set_same ..
  have away {a : Word} (free : ¬ m.Scratch (n + 3) a) : p.mem a = m.mem a := by
    obtain ⟨other, below⟩ := scratch_pushed small bottom free
    rw [memory'' (by rwa [scratch_iff (by decide), stack]), memory', if_neg other, memory]
  have inside {a : Word} (block : Block (q.reg 6) n a) : m.Scratch (n + 3) a :=
    area_scratch small (bottom ▸ block)
  obtain ⟨t, executes, state⟩ := blkloop_runs globals label (p := p.set 1 (q.reg 6)) positive
    (by
      rw [source₁, dest₁]
      exact fun a block area => source a block (inside area))
  have copy := state.memory
  rw [source₁, dest₁, Machine.set_mem] at copy
  have core : Executes globals ([.addimm 1 6 3] ++ blkloop label 1 0 0 0 n 2 3) p t :=
    Executes.after rfl (address ▸ executes) (blkloop_closed label n)
  have closed : Closed ([.addimm 1 6 3] ++ blkloop label 1 0 0 0 n 2 3) :=
    (closed_of_plain rfl).append (blkloop_closed label n)
  have outside {a : Word} (pushed : r.Scratch 2 a ∨ a = q.reg 6 - 1) : t.mem a = p.mem a := by
    rw [scratch_iff (by decide), stack] at pushed
    rw [copy, copied_outside (pushed_outside small pushed)]
  have top : ¬ r.Scratch 2 (q.reg 6 - 1) := by
    rw [scratch_iff (by decide), stack, BitVec.sub_self]
    decide
  have bottom' : t.reg 6 = r.reg 6 - 2 := by
    rw [state.kept 6 (by decide) (by decide) (by decide) (by decide), Machine.set_reg,
      if_neg (by decide), stack']
  rw [← second] at core
  obtain ⟨v, whole, same, registers⟩ := core.saving_two closed bottom'
    (fun a free => (outside (.inl free)).trans (second ▸ rfl))
  have saved : v.mem (q.reg 6 - 1) = q.reg 1 := by
    rw [same, outside (.inr rfl), memory'' top, memory', if_pos rfl]
  have stacked : v.reg 6 = q.reg 6 - 1 := by
    rw [registers, if_pos (by decide), stack]
  have closed₂ : Closed
      (push 2 ++ push 3 ++ ([.addimm 1 6 3] ++ blkloop label 1 0 0 0 n 2 3) ++ pop 3 ++ pop 2) :=
    (((closed_of_plain rfl).append closed).append (closed_of_plain rfl)).append
    (closed_of_plain rfl)
  rw [← first] at whole
  have last := Executes.between (m := q) (r := 1) (by decide) closed₂ whole stacked saved
  rw [← area] at last
  have executes := Executes.after (addimms_plain ..) last
    (((closed_of_plain rfl).append closed₂).append (closed_of_plain rfl))
  rw [area] at executes
  refine ⟨(v.set 1 (q.reg 1)).set 6 (q.reg 6), ?_, ?_, fun k less => ?_, fun a free => ?_,
    fun i h0 h6 => ?_⟩
  · simp only [argB, List.append_assoc] at executes ⊢
    exact executes
  · rw [Machine.set_same, bottom]
  · rw [Machine.set_same, Machine.set_mem, Machine.set_mem, same, copy, copied_at less (by omega),
      away (source _ (block_at less (by omega)))]
  · rw [Machine.set_mem, Machine.set_mem, same, copy, copied_outside fun block => free
      (inside block), away free]
  · rw [Machine.set_reg, if_neg h6, Machine.set_reg]
    split <;> rename_i one
    · rw [one, kept 1 (by decide)]
    · rw [registers]
      split <;> rename_i saved
      · rw [kept' i h6, kept i h6]
      · push Not at saved
        rw [state.kept i h0 one saved.1 saved.2.1, Machine.set_reg, if_neg one, kept'' i h6,
          kept' i h6, kept i h6]

end

/-- Structures of every size, assigned and passed. -/
theorem copies_blocks {n : Nat} (positive : 0 < n) (globals : String → Word) (label : Nat)
    (m : Machine) :
    ((∀ a, Block (m.reg 0) n a → ¬ Block (m.reg 1) n a) →
      (∀ a, Block (m.reg 0) n a ∨ Block (m.reg 1) n a → ¬ m.Scratch 2 a) →
        AssignsBlock globals label n m) ∧
    ((∀ a, Block (m.reg 0) n a → ¬ m.Scratch (n + 3) a) → PassesBlock globals label n m) :=
  ⟨fun apart clear => asgnB_copies label positive apart
    (fun a block => clear a (.inl block)) fun a block =>
    clear a (.inr block), fun clear => argB_copies label positive clear⟩

/-- Two structures below a stack at 0x5000. -/
def twoBlocks : Machine :=
  ⟨fun i => if i = 0 then 0x3000 else if i = 1 then 0x4000 else 0x5000, fun _ => 7, 0⟩

theorem copies_three : AssignsBlock (fun _ => 0) 1 3 twoBlocks ∧
    PassesBlock (fun _ => 0) 1 3 twoBlocks := by
  have source : twoBlocks.reg 0 = 0x3000#16 := rfl
  have dest : twoBlocks.reg 1 = 0x4000#16 := rfl
  have stack : twoBlocks.reg 6 = 0x5000#16 := rfl
  obtain ⟨assigns, passes⟩ := copies_blocks (n := 3) (by decide) (fun _ => 0) 1 twoBlocks
  refine ⟨assigns (fun a => ?_) fun a => ?_, passes fun a => ?_⟩
  all_goals
    simp only [scratch_iff (m := twoBlocks) (n := 2) (by decide), scratch_iff (m := twoBlocks)
      (n := 6) (by decide),
      Block, source, dest, stack, Nat.reduceAdd]
    bv_omega

end LC3Tools.Emit
