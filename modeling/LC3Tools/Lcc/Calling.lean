import LC3Tools.Lcc.BlockCopy
import LC3Tools.Lcc.FarStore
import LC3Tools.Lcc.Frame

/-! A direct call, from the first argument that is pushed to the code behind the call, with
the callee's frame between. -/
namespace LC3Tools.Emit
open StateTransition

/-- An ARG node, by the register of its value, and an ARG+B node, whose address is in R0. -/
inductive Arg where
  | word (r : Temp)
  | block (label size : Nat) (positive : 0 < size)

def Machine.words (m : Machine) (a : Word) (n : Nat) : List Word :=
  (List.range n).map fun k => m.mem (a + BitVec.ofNat 16 k)

namespace Arg

def size : Arg → Nat
  | .word _ => 1
  | .block _ size _ => size

def code : Arg → List Line
  | .word r => push r
  | .block label size _ => argB label size

/-- What is passed, when the node is reached in some state. -/
def value (m : Machine) : Arg → List Word
  | .word r => [m.reg r]
  | .block _ size _ => m.words (m.reg 0) size

/-- A structure is not where its copy is built. -/
def Clear (m : Machine) : Arg → Prop
  | .word _ => True
  | .block _ size _ => ∀ a, Block (m.reg 0) size a → ¬ m.Scratch (size + 3) a

end Arg

/-- `doarg` with the alignment that it passes to `mkactual`. -/
def doarg (argoffset size : Int) : Int := roundup argoffset 1 + size

/-- What `docall` leaves in `syms[0]`. -/
def argoffset (args : List Arg) : Int := args.foldl (fun n a => doarg n a.size) 0

/-- The CALL case of `emit2` for the name of a function. Only CALL+V returns nothing. -/
def call (name : String) (returns : Bool) (args : List Arg) : List Line :=
  [.lc3global ("lc3_" ++ name) 0, .load 0 0 0, .jsrr 0] ++ (if returns then [.load 7 6 0] else []) ++
    addimms 6 6 15 1 (1 + argoffset args)

/-- What JSRR does besides the jump. -/
def Machine.link (m : Machine) (back : Word) : Machine :=
  { m with reg := fun j => if j = 7 then back else m.reg j }

/-- The code between two arguments: it works below R6. -/
structure Evaluates (m m' : Machine) : Prop where
  frame : m'.reg 5 = m.reg 5
  stack : m'.reg 6 = m.reg 6
  memory : ∀ a, m.reg 6 ≤ a → m'.mem a = m.mem a

/-- The arguments are evaluated and pushed, the last one first. -/
inductive Pushes (globals : String → Word) : List Arg → Machine → Machine → List (List Word) → Prop
  | nil (m : Machine) : Pushes globals [] m m []
  | cons {arg : Arg} {args : List Arg} {m t u v : Machine} {values : List (List Word)} :
      Pushes globals args m t values → Evaluates t u → arg.Clear u → Executes globals arg.code u v →
      Pushes globals (arg :: args) m v (arg.value u :: values)

/-- A body keeps R5 and everything above its frame. -/
structure Keeps (b x : Machine) : Prop where
  frame : x.reg 5 = b.reg 5
  memory : ∀ a, b.reg 5 < a → x.mem a = b.mem a

/-- The words at the offsets of the formals. -/
def Function.passed (fn : Function) (x : Machine) : List (List Word) :=
  List.zipWith (fun offset size => x.words (x.slot offset) size) fn.offsets fn.formals

/-- The stack picture inside the body, which starts in b. -/
structure Framed (fn : Function) (size : Nat) (values : List (List Word)) (b : Machine) : Prop where
  formals : ∀ x, Keeps b x → fn.passed x = values
  above : ∀ p ∈ fn.frame.locals, ∀ k < p.2, b.reg 6 ≤ b.slot (p.1 + k)
  apart : ∀ p ∈ fn.frame.locals, ∀ k < p.2, ∀ j < 3 + size, b.slot (p.1 + k) ≠ b.slot (1 + j)

/-- The code before and behind the call, and that of the callee. -/
structure Balanced (globals : String → Word) (name : String) (returns : Bool) (args : List Arg)
    (fn : Function)
    (m : Machine) : Prop where
  fits : ∀ line ∈ args.flatMap Arg.code ++ call name returns args ++ fn.entry ++ exitCode, line.Fits
  pushes : ∀ arg ∈ args, ∀ u, arg.Clear u → ∃ v, Executes globals arg.code u v
  calls : ∀ t values, Pushes globals args m t values → ∀ back, ∃ c b,
    Runs globals (call name returns args) (.line 0, t) (.line 2, c) ∧
    c.reg 0 = t.mem (globals ("lc3_" ++ name)) ∧ Executes globals fn.entry (c.link back) b ∧
    Framed fn (args.map Arg.size).sum values b ∧
    ∀ x, Keeps b x → ∃ y z, Runs globals exitCode (.line 0, x) (.address back, y) ∧
      Runs globals (call name returns args) (.line 3, y)
        (.line (call name returns args).length, z) ∧
      (returns → z.reg 7 = x.reg 7) ∧ z.reg 5 = m.reg 5 ∧ z.reg 6 = m.reg 6 ∧
      ∀ a, m.reg 6 ≤ a → z.mem a = m.mem a

section
variable {globals : String → Word} {args : List Arg} {fn : Function} {m t u v x : Machine}
  {values : List (List Word)}

theorem roundup_one (n : Int) : roundup n 1 = n := by simp [roundup]

theorem argoffset_eq (args : List Arg) : argoffset args = (args.map Arg.size).sum := by
  suffices every : ∀ n :
    Int, args.foldl (fun n a => doarg n a.size) n = n + (args.map Arg.size).sum by
    rw [argoffset, every, Int.zero_add]
  induction args with
  | nil => simp
  | cons a args ih =>
    intro n
    rw [List.foldl_cons, ih, doarg, roundup_one, List.map_cons, List.sum_cons]
    omega

theorem length_words (m : Machine) (a : Word) (n : Nat) : (m.words a n).length = n := by
  simp [Machine.words]

theorem words_add (m : Machine) (a : Word) (j k : Nat) :
    m.words a (j + k) = m.words a j ++ m.words (a + BitVec.ofNat 16 j) k := by
  simp only [Machine.words, List.range_add, List.map_append, List.map_map,
    List.append_cancel_left_eq]
  refine List.map_congr_left fun i _ => ?_
  rw [Function.comp_apply, BitVec.ofNat_add, BitVec.add_assoc]

theorem words_congr {a : Word} {n : Nat}
    (same : ∀ k < n, u.mem (a + BitVec.ofNat 16 k) = t.mem (a + BitVec.ofNat 16 k)) :
      u.words a n = t.words a n :=
  List.map_congr_left fun k mem => same k (List.mem_range.mp mem)

theorem slot_add (m : Machine) (offset : Int) (n : Nat) :
    m.slot (offset + n) = m.slot offset + BitVec.ofNat 16 n := by
  rw [Machine.slot, Machine.slot, BitVec.ofInt_add, BitVec.ofInt_natCast, BitVec.add_assoc]

theorem passed_words {offset : Int} {sizes : List Nat} (lengths : values.map List.length = sizes)
    (all : x.words (x.slot offset) sizes.sum = values.flatten) :
    List.zipWith (fun offset size => x.words (x.slot offset) size)
      (formalOffsets offset sizes) sizes = values := by
  induction sizes generalizing offset values with
  | nil => rw [List.map_eq_nil_iff.mp lengths, formalOffsets, List.zipWith_nil_left]
  | cons size sizes ih =>
    obtain ⟨value, values, rfl, long, rest⟩ := List.map_eq_cons_iff.mp lengths
    rw [List.sum_cons, words_add, List.flatten_cons] at all
    obtain ⟨first, later⟩ := List.append_inj all (by rw [length_words, long])
    rw [formalOffsets, List.zipWith_cons_cons, first]
    congr 1
    exact ih rest (by rw [slot_add, later])

theorem push_arg (globals : String → Word) {arg : Arg} (clear : arg.Clear u) :
    ∃ v, Executes globals arg.code u v ∧
    v.reg 5 = u.reg 5 ∧ v.reg 6 = u.reg 6 - BitVec.ofNat 16 arg.size ∧
      v.words (v.reg 6) arg.size = arg.value u ∧
    ∀ a, ¬ u.Scratch (arg.size + 3) a → v.mem a = u.mem a := by
  cases arg with
  | word r =>
    have other : r.1 ≠ 6 := Temp.not_stack r
    have stack : (run globals (push r) u).reg 6 = u.reg 6 - 1 := push_stack _ other
    refine ⟨run globals (push r) u, executes_straight rfl, push_keeps _ 5 other (by decide), stack,
      ?_, fun a free => ?_⟩
    · simp [Machine.words, Arg.size, Arg.value, stack, push_memory _ other]
    · rw [push_memory _ other, if_neg]
      rintro rfl
      exact free ⟨0, Nat.succ_pos _, rfl⟩
  | block label size positive =>
    have passes : PassesBlock globals label size u := argB_copies label positive clear
    obtain ⟨v, executes, stack, copied, memory, kept⟩ := passes.runs
    exact ⟨v, executes, kept 5 (by decide) (by decide), stack,
      List.map_congr_left fun k mem => copied k (List.mem_range.mp mem), memory⟩

theorem arg_fits (arg : Arg) : ∀ line ∈ arg.code, line.Fits := by
  cases arg with
  | word r => exact push_fits r
  | block label size positive => exact argB_fits label positive

theorem not_scratch {n : Nat} {a : Word} (room : n ≤ (u.reg 6).toNat) (above : u.reg 6 ≤ a) :
    ¬ u.Scratch n a := by
  rintro ⟨k, less, rfl⟩
  bv_omega

/-- The arguments are on the stack, the first one at its top. -/
structure Pushed (args : List Arg) (m t : Machine) (values : List (List Word)) : Prop where
  frame : t.reg 5 = m.reg 5
  stack : (t.reg 6).toNat + (args.map Arg.size).sum = (m.reg 6).toNat
  memory : ∀ a, m.reg 6 ≤ a → t.mem a = m.mem a
  lengths : values.map List.length = args.map Arg.size
  words : t.words (t.reg 6) (args.map Arg.size).sum = values.flatten

theorem length_value (arg : Arg) (u : Machine) : (arg.value u).length = arg.size := by
  cases arg with
  | word => rfl
  | block => exact length_words ..

theorem pushed (pushes : Pushes globals args m t values)
    (room : (args.map Arg.size).sum + 3 ≤ (m.reg 6).toNat) :
    Pushed args m t values := by
  induction pushes with
  | nil m => exact ⟨rfl, rfl, fun _ _ => rfl, rfl, rfl⟩
  | @cons arg args m t u v values pushes evaluates clear executes ih =>
    rw [List.map_cons, List.sum_cons] at room
    obtain ⟨frame, stack, memory, lengths, words⟩ := ih (by omega)
    obtain ⟨v', executes', frame', stack', value, kept⟩ := push_arg globals clear
    cases executes.unique executes'
    rw [evaluates.stack] at stack'
    have near : arg.size + 3 ≤ (u.reg 6).toNat := by
      rw [evaluates.stack]
      omega
    have above {a : Word} (le : t.reg 6 ≤ a) : v.mem a = t.mem a := by
      rw [kept a (not_scratch near (evaluates.stack ▸ le)), evaluates.memory a le]
    have bottom : v.reg 6 + BitVec.ofNat 16 arg.size = t.reg 6 := by
      rw [stack', BitVec.sub_add_cancel]
    refine ⟨by rw [frame', evaluates.frame, frame], ?_, fun a le => ?_, ?_, ?_⟩
    · rw [List.map_cons, List.sum_cons, stack']
      bv_omega
    · rw [above (by bv_omega), memory a le]
    · rw [List.map_cons, List.map_cons, lengths, length_value]
    · rw [List.map_cons, List.sum_cons, words_add, bottom, value, List.flatten_cons, ← words]
      congr 1
      exact words_congr fun k less => above (by bv_omega)

theorem enters (globals : String → Word) (fn : Function) (m : Machine) :
    ∃ b, Executes globals fn.entry m b ∧
    b.reg 5 = m.reg 6 - 4 ∧ b.reg 6 = m.reg 6 - 3 - BitVec.ofInt 16 fn.framesize ∧
    ∀ a, b.mem a = if a = m.reg 6 - 3 then m.reg 5 else if a = m.reg 6 - 2 then m.reg 7
      else m.mem a := by
  have two : m.reg 6 + BitVec.ofInt 16 (-2) = m.reg 6 - 2 := by
    rw [BitVec.sub_eq_add_neg]
    rfl
  have three : m.reg 6 - 2 - 1 = m.reg 6 - 3 := BitVec.sub_sub ..
  have four : m.reg 6 - 3 - 1 = m.reg 6 - 4 := BitVec.sub_sub ..
  have saved : run globals [.addimm 6 6 (-2), .store 7 6 0] m = (m.set 6 (m.reg 6 - 2)).write
    (m.reg 6 - 2) (m.reg 7) := by
    simp only [run_cons, run_nil, Line.effect, two, Machine.set_same, plus_zero, Machine.set_reg]
    rfl
  have based (s : Machine) : run globals [.addimm 5 6 (-1)] s = s.set 5 (s.reg 6 - 1) := by
    rw [run_cons, run_nil, Line.effect, minus_one]
  have lowered : (-1 : Int) * fn.framesize = -fn.framesize := Int.neg_one_mul _
  have whole : fn.entry = [.addimm 6 6 (-2), .store 7 6 0] ++ push 5 ++ [.addimm 5 6 (-1)] ++
      addimms 6 6 16 (-1) fn.framesize := by
    rw [Function.entry, if_pos fn.framesize_positive.ne']
  have plain : fn.entry.all Line.plain := by
    rw [whole, List.all_append, addimms_plain]
    rfl
  refine ⟨_, executes_straight (all_straight plain), ?_⟩
  rw [whole, run_append, run_append, run_append, saved, run_push 5 (by decide), based, run_addimms,
    lowered,
    BitVec.ofInt_neg, ← BitVec.sub_eq_add_neg]
  simp only [Machine.set_reg, Machine.set_mem, Machine.write_reg, Machine.write_mem, if_true,
    three, four]
  exact ⟨rfl, rfl, fun a => rfl⟩

theorem exits (globals : String → Word) (x : Machine) : ∃ y, y.reg 6 = x.reg 5 + 3 ∧
    y.reg 5 = y.mem (x.reg 5 + 1) ∧
    Runs globals exitCode (.line 0, x) (.address (y.mem (x.reg 5 + 2)), y) ∧
    ∀ a, y.mem a = if a = x.reg 5 + 3 then x.reg 7 else x.mem a := by
  have three : BitVec.ofInt 16 3 = 3 := rfl
  have one : BitVec.ofInt 16 1 = 1 := rfl
  have two : x.reg 5 + 1 + 1 = x.reg 5 + 2 := BitVec.add_assoc ..
  have three' : x.reg 5 + 2 + 1 = x.reg 5 + 3 := BitVec.add_assoc ..
  have stored : run globals [.store 7 5 3, .addimm 6 5 1] x =
      (x.write (x.reg 5 + 3) (x.reg 7)).set 6 (x.reg 5 + 1) := by
    simp only [run_cons, run_nil, Line.effect, Machine.write_reg, three, one]
  have lines : exitCode = [.store 7 5 3, .addimm 6 5 1] ++ pop 5 ++ pop 7 ++ [.jmp 7] := rfl
  generalize final : run globals ([.store 7 5 3, .addimm 6 5 1] ++ pop 5 ++ pop 7) x = y
  have there : Reaches (step globals exitCode) (.line 0, x) (.line 6, y) := by
    rw [← final]
    exact reaches_piece 0 ([.store 7 5 3, .addimm 6 5 1] ++ pop 5 ++ pop 7) ⟨[.jmp 7], rfl⟩ rfl
  have jumps : step globals exitCode (.line 6, y) = some (.address (y.reg 7), y) := rfl
  rw [run_append, run_append, stored, run_pop 5 (by decide), run_pop 7 (by decide)] at final
  simp only [Machine.set_reg, Machine.set_mem, Machine.write_reg, Machine.write_mem, if_true, two,
    three'] at final
  have back : y.reg 7 = y.mem (x.reg 5 + 2) := by
    rw [← final]
    rfl
  rw [back] at jumps
  refine ⟨y, ?_, ?_, mem_eval.mpr ⟨there.tail jumps, rfl⟩, fun a => ?_⟩
  all_goals
    rw [← final]
    rfl

theorem takes (globals : String → Word) (name : String) (returns : Bool) (args : List Arg)
    (y : Machine) : ∃ z,
    Runs globals (call name returns args) (.line 3, y) (.line (call name returns args).length, z) ∧
    (returns → z.reg 7 = y.mem (y.reg 6)) ∧ z.reg 5 = y.reg 5 ∧
    z.reg 6 = y.reg 6 + BitVec.ofNat 16 (1 + (args.map Arg.size).sum) ∧ z.mem = y.mem := by
  generalize behind : (if returns then [Line.load 7 6 0] else []) ++
    addimms 6 6 15 1 (1 + argoffset args) = rest
  have whole : call name returns args = [.lc3global ("lc3_" ++ name) 0, .load 0 0 0, .jsrr 0] ++
    rest := by
    rw [← behind, ← List.append_assoc, call]
  have straight : rest.all Line.straight := by
    rw [← behind, List.all_append, all_straight (addimms_plain ..)]
    cases returns <;> rfl
  have reaches : Reaches (step globals (call name returns args)) (.line 3, y)
      (.line (3 + rest.length), run globals rest y) :=
    reaches_piece 3 rest ⟨[], by rw [whole, List.append_nil]; rfl⟩ straight
  have length : 3 + rest.length = (call name returns args).length := by
    rw [whole, List.length_append]
    rfl
  have space : (1 : Int) * (1 + argoffset args) = (1 + (args.map Arg.size).sum : Nat) := by
    rw [argoffset_eq]
    omega
  rw [length] at reaches
  refine ⟨run globals rest y, mem_eval.mpr ⟨reaches, step_end⟩, ?_⟩
  rw [← behind, run_append, run_addimms, space, BitVec.ofInt_natCast]
  cases returns with
  | true =>
    simp only [if_true, run_cons, run_nil, Line.effect, plus_zero, Machine.set_reg, Machine.set_mem]
    exact ⟨fun _ => rfl, rfl, rfl, trivial⟩
  | false => exact ⟨fun h => (by cases h), rfl, rfl, rfl⟩

theorem call_fits (name : String) (returns : Bool) (args : List Arg) (fn : Function) :
    ∀ line ∈ args.flatMap Arg.code ++ call name returns args ++ fn.entry ++ exitCode,
      line.Fits := by
  have positive : 0 < 1 + argoffset args := by
    rw [argoffset_eq]
    omega
  have up : ∀ line ∈ addimms 6 6 15 1 (1 + argoffset args), line.Fits :=
    addimms_fits_up 6 6 positive
  have down : ∀ line ∈ addimms 6 6 16 (-1) fn.framesize, line.Fits :=
    addimms_fits_down 6 6 fn.framesize_positive
  intro line mem
  simp only [call, Function.entry, exitCode, if_pos fn.framesize_positive.ne', List.mem_append,
    or_assoc] at mem
  rcases mem with mem | mem | mem | mem | mem | mem | mem | mem | mem | mem | mem | mem
  · obtain ⟨arg, -, mem⟩ := List.mem_flatMap.mp mem
    exact arg_fits arg line mem
  · simp only [List.mem_cons, List.not_mem_nil, or_false] at mem
    rcases mem with rfl | rfl | rfl <;> simp [Line.Fits]
  · cases returns with
    | true =>
      cases List.mem_singleton.mp mem
      simp [Line.Fits]
    | false => cases mem
  · exact up line mem
  · simp only [List.mem_cons, List.not_mem_nil, or_false] at mem
    rcases mem with rfl | rfl <;> simp [Line.Fits]
  · exact push_fits 5 line mem
  · cases List.mem_singleton.mp mem
    simp [Line.Fits]
  · exact down line mem
  · simp only [List.mem_cons, List.not_mem_nil, or_false] at mem
    rcases mem with rfl | rfl <;> simp [Line.Fits]
  · exact pop_fits 5 line mem
  · exact pop_fits 7 line mem
  · cases List.mem_singleton.mp mem
    trivial

theorem slot_toNat {s : Word} {b : Machine} {offset : Int} (frame : b.reg 5 = s - 4)
    (low : 4 ≤ s.toNat + offset)
    (high : s.toNat + offset < 2 ^ 16 + 4) :
    ((b.slot offset).toNat : Int) = s.toNat - 4 + offset := by
  rw [Machine.slot, frame, BitVec.toNat_add, BitVec.toNat_sub, BitVec.toNat_ofInt]
  have four : (4 : Word).toNat = 4 := rfl
  omega

theorem locals_apart (size : Nat) {s : Word} {b : Machine} (frame : b.reg 5 = s - 4)
    (stack : b.reg 6 = s - 3 - BitVec.ofInt 16 fn.framesize) (room : 3 + fn.framesize ≤ s.toNat)
    (small : s.toNat + size < 2 ^ 16) {p : Int × Nat} (mem : p ∈ fn.frame.locals) {k : Nat}
    (less : k < p.2) :
    b.reg 6 ≤ b.slot (p.1 + k) ∧ ∀ j < 3 + size, b.slot (p.1 + k) ≠ b.slot (1 + j) := by
  obtain ⟨below, above⟩ := fn.locals_within mem less
  have positive := fn.framesize_positive
  have inside : ((b.slot (p.1 + k)).toNat : Int) = s.toNat - 4 + (p.1 + k) :=
    slot_toNat frame (by omega) (by omega)
  constructor
  · have bottom : ((b.reg 6).toNat : Int) = s.toNat - 3 - fn.framesize := by
      rw [stack, BitVec.toNat_sub, BitVec.toNat_sub, BitVec.toNat_ofInt]
      have three : (3 : Word).toNat = 3 := rfl
      omega
    rw [BitVec.le_def]
    omega
  · intro j less same
    have outside : ((b.slot (1 + j)).toNat : Int) = s.toNat - 4 + (1 + j) :=
      slot_toNat frame (by omega) (by omega)
    rw [same] at inside
    omega

theorem above_frame {s : Word} {c b x : Machine} (room : 4 ≤ s.toNat) (frame : b.reg 5 = s - 4)
    (saved : ∀ a, b.mem a = if a = s - 3 then c.reg 5 else if a = s - 2 then c.reg 7 else c.mem a)
      (keeps : Keeps b x)
    {a : Word} (above : s ≤ a) : x.mem a = c.mem a := by
  rw [keeps.memory a (by rw [frame]; bv_omega), saved, if_neg (by bv_omega), if_neg (by bv_omega)]

theorem frame_returns {s : Word} {c b x y : Machine} (room : 4 ≤ s.toNat) (frame : b.reg 5 = s - 4)
    (saved : ∀ a, b.mem a = if a = s - 3 then c.reg 5 else if a = s - 2 then c.reg 7 else c.mem a)
      (keeps : Keeps b x)
    (left : ∀ a, y.mem a = if a = x.reg 5 + 3 then x.reg 7 else x.mem a) :
    y.mem (x.reg 5 + 1) = c.reg 5 ∧ y.mem (x.reg 5 + 2) = c.reg 7 ∧ y.mem (x.reg 5 + 3) = x.reg 7 ∧
      ∀ a, s ≤ a → y.mem a = c.mem a := by
  have base : x.reg 5 = s - 4 := keeps.frame.trans frame
  rw [base] at left ⊢
  refine ⟨?_, ?_, ?_, fun a above => ?_⟩
  · rw [left, if_neg (by bv_omega), keeps.memory _ (by rw [frame]; bv_omega), saved,
      if_pos (by bv_omega)]
  · rw [left, if_neg (by bv_omega), keeps.memory _ (by rw [frame]; bv_omega), saved,
      if_neg (by bv_omega),
      if_pos (by bv_omega)]
  · rw [left, if_pos rfl]
  · rw [left, if_neg (by bv_omega), above_frame room frame saved keeps above]

theorem call_loads (globals : String → Word) (name : String) (returns : Bool) (args : List Arg)
    (t : Machine) : ∃ c,
    Runs globals (call name returns args) (.line 0, t) (.line 2, c) ∧
      c.reg 0 = t.mem (globals ("lc3_" ++ name)) ∧
    c.mem = t.mem ∧ ∀ i, i ≠ 0 → c.reg i = t.reg i := by
  have reaches : Reaches (step globals (call name returns args)) (.line 0, t)
      (.line 2, run globals [.lc3global ("lc3_" ++ name) 0, .load 0 0 0] t) :=
    reaches_piece 0 [.lc3global ("lc3_" ++ name) 0, .load 0 0 0] ⟨_, rfl⟩ rfl
  refine ⟨_, mem_eval.mpr ⟨reaches, rfl⟩, ?_, rfl, fun i away => ?_⟩
  · simp only [run_cons, run_nil, Line.effect, Machine.set_same, Machine.set_mem, plus_zero]
  · simp only [run_cons, run_nil, Line.effect, Machine.set_reg, if_neg away]

end

/-- A stack pointer with room for the arguments, the three saved words and the frame. -/
theorem call_balanced (globals : String → Word) (name : String) (returns : Bool) {args : List Arg}
    {fn : Function}
    {m : Machine} (matching : args.map Arg.size = fn.formals)
    (room : (args.map Arg.size).sum + 3 + fn.framesize ≤ (m.reg 6).toNat) :
    Balanced globals name returns args fn m := by
  have positive := fn.framesize_positive
  refine ⟨call_fits name returns args fn, fun arg _ u clear => ?_, fun t values pushes back => ?_⟩
  · obtain ⟨v, executes, -⟩ := push_arg globals clear
    exact ⟨v, executes⟩
  obtain ⟨frame, stack, memory, lengths, words⟩ := pushed pushes (by omega)
  have small := (m.reg 6).isLt
  obtain ⟨c, loads, address, same, kept⟩ := call_loads globals name returns args t
  have linked : (c.link back).reg 6 = t.reg 6 := kept 6 (by decide)
  have based : (c.link back).reg 5 = m.reg 5 := (kept 5 (by decide)).trans frame
  obtain ⟨b, enters, frame', stack', saved⟩ := enters globals fn (c.link back)
  rw [linked] at frame' stack' saved
  refine ⟨c, b, loads, address, enters,
    ⟨fun x keeps => ?_, fun p mem k less => ?_, fun p mem k less => ?_⟩,
    fun x keeps => ?_⟩
  · have first : x.slot 4 = t.reg 6 := by
      rw [Machine.slot, keeps.frame, frame']
      exact BitVec.sub_add_cancel _ _
    refine passed_words (lengths.trans matching) ?_
    rw [← matching, first, ← words]
    exact words_congr fun k less => by
      rw [above_frame (by omega) frame' saved keeps (by bv_omega), ← same]
      rfl
  · exact (locals_apart 0 frame' stack' (by omega) (by omega) mem less).1
  · exact (locals_apart _ frame' stack' (by omega) (by omega) mem less).2
  · obtain ⟨y, stack₁, frame₁, exits, left⟩ := exits globals x
    obtain ⟨base, returned, result, above⟩ := frame_returns (by omega) frame' saved keeps left
    obtain ⟨z, takes, result', frame₂, stack₂, memory'⟩ := takes globals name returns args y
    rw [returned] at exits
    refine ⟨y, z, exits, takes, fun h => ?_, ?_, ?_, fun a le => ?_⟩
    · rw [result' h, stack₁, result]
    · rw [frame₂, frame₁, base, based]
    · rw [stack₂, stack₁, keeps.frame, frame']
      bv_omega
    · rw [memory', above a (by bv_omega), ← memory a le, ← same]
      rfl

theorem call_balanced_at : Balanced (fun _ => 0) "f" true
    [.word ⟨1, by decide⟩, .block 1 2 (by decide)]
    ⟨[1, 2], .block (.auto 20 1 (by decide) .done) .done⟩ ⟨fun _ => 0x4000, fun _ => 0, 0⟩ :=
  call_balanced _ "f" true rfl (by decide)

theorem unbalanced_at_zero : ([] : List Arg).map Arg.size = (⟨[], .done⟩ : Function).formals ∧
    ¬ Balanced (fun _ => 0) "f" false [] ⟨[], .done⟩ ⟨fun _ => 0, fun _ => 0, 0⟩ := by
  refine ⟨rfl, fun balanced => ?_⟩
  obtain ⟨c, b, loads, -, enters₁, -, leaves⟩ := balanced.calls _ [] (.nil _) 1
  obtain ⟨y, z, exits₁, takes₁, -, -, -, above⟩ := leaves b ⟨rfl, fun _ _ => rfl⟩
  obtain ⟨c', loads', -, same, kept⟩ :=
    call_loads (fun _ => 0) "f" false [] ⟨fun _ => 0, fun _ => 0, 0⟩
  cases loads.unique loads'
  obtain ⟨b', enters₂, frame, -, saved⟩ := enters (fun _ => 0) ⟨[], .done⟩ (c.link 1)
  cases enters₁.unique enters₂
  obtain ⟨y', -, -, exits₂, left⟩ := exits (fun _ => 0) b
  obtain rfl : y = y' := congrArg Prod.snd (exits₁.unique exits₂)
  obtain ⟨z', takes₂, -, -, -, memory⟩ := takes (fun _ => 0) "f" false [] y
  cases takes₁.unique takes₂
  have bottom : (c.link 1).reg 6 = 0 := kept 6 (by decide)
  rw [bottom] at frame saved
  have clobbered := above (0 - 2) (by decide)
  rw [memory, left, frame, if_neg (by decide), saved, if_neg (by decide), if_pos rfl] at clobbered
  exact absurd (show (1 : Word) = 0 from clobbered) (by decide)

end LC3Tools.Emit
