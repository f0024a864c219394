import LC3Tools.Lcc.Constants

/-! `function` of `lc3.md`: the offsets that formals and locals get, and the code that opens
and closes a frame. -/
namespace LC3Tools.Emit
open StateTransition

/-- The macro, for an alignment that is a power of two. -/
def roundup (x n : Int) : Int := (x + (n - 1)) / n * n

/-- What `gencode` hands to the back end for a piece of a function: locals, and blocks with
locals of their own. A temporary that `gen` needs is one more local. -/
inductive Code where
  | done
  | auto (size align : Nat) (positive : 0 < align) (rest : Code)
  | block (inner rest : Code)

/-- `offset` and `maxoffset`, and every local so far with its offset and its size. -/
structure Frame where
  offset : Int
  maxoffset : Int
  locals : List (Int × Nat)

def mkauto (size align : Nat) (f : Frame) : Frame :=
  let offset := roundup (f.offset + size) align
  { f with offset := offset, locals := (-offset, size) :: f.locals }

/-- `blockbeg` has saved the offset. -/
def blockend (saved : Int) (f : Frame) : Frame :=
  { f with maxoffset := if f.offset > f.maxoffset then f.offset else f.maxoffset, offset := saved }

def gencode : Code → Frame → Frame
  | .done, f => f
  | .auto size align _ rest, f => gencode rest (mkauto size align f)
  | .block inner rest, f => gencode rest (blockend f.offset (gencode inner f))

/-- `p->x.offset = q->x.offset = offset; offset += q->type->size;` -/
def formalOffsets : Int → List Nat → List Int
  | _, [] => []
  | offset, size :: rest => offset :: formalOffsets (offset + size) rest

/-- A function, by the sizes of its formals and its outermost block. -/
structure Function where
  formals : List Nat
  body : Code

namespace Function
variable (fn : Function)

def offsets : List Int := formalOffsets 4 fn.formals

def frame : Frame := gencode (.block fn.body .done) ⟨-1, 0, []⟩

def framesize : Int := fn.frame.maxoffset + 1

/-- From the space for the return value to the frame. -/
def entry : List Line :=
  [.addimm 6 6 (-2), .store 7 6 0] ++ push 5 ++ [.addimm 5 6 (-1)] ++
    if fn.framesize ≠ 0 then addimms 6 6 16 (-1) fn.framesize else []

end Function

/-- From the return value to RET. -/
def exitCode : List Line := [.store 7 5 3, .addimm 6 5 1] ++ pop 5 ++ pop 7 ++ [.jmp 7]

theorem roundup_le {x n : Int} (positive : 0 < n) : x ≤ roundup x n := by
  have whole := Int.mul_ediv_add_emod (x + (n - 1)) n
  have rest := Int.emod_lt_of_pos (x + (n - 1)) positive
  rw [Int.mul_comm] at whole
  unfold roundup
  omega

/-- From one frame to a later one: the locals between them lie behind the first and within
the second. -/
structure Grows (f g : Frame) : Prop where
  offset : f.offset ≤ g.offset
  maxoffset : f.maxoffset ≤ g.maxoffset
  locals : ∀ p ∈ g.locals, p ∈ f.locals ∨
    f.offset + p.2 ≤ -p.1 ∧ (-p.1 ≤ g.offset ∨ -p.1 ≤ g.maxoffset)

theorem grows_mkauto {size align : Nat} (positive : 0 < align) (f : Frame) :
    Grows f (mkauto size align f) := by
  have up : f.offset + size ≤ roundup (f.offset + size) align := roundup_le (by omega)
  refine ⟨?_, le_rfl, fun p mem => ?_⟩
  · simp only [mkauto]
    omega
  · rcases List.mem_cons.mp mem with rfl | mem
    · refine .inr ⟨?_, .inl ?_⟩ <;> simp only [mkauto] <;> omega
    · exact .inl mem

theorem Grows.trans {f g h : Frame} (first : Grows f g) (second : Grows g h) : Grows f h := by
  have offset := first.offset
  have offset' := second.offset
  have maxoffset := second.maxoffset
  refine ⟨by omega, first.maxoffset.trans maxoffset, fun p mem => ?_⟩
  rcases second.locals p mem with mem | ⟨behind, within⟩
  · rcases first.locals p mem with mem | ⟨behind, within⟩
    · exact .inl mem
    · exact .inr ⟨behind, by omega⟩
  · exact .inr ⟨by omega, within⟩

theorem grows_block {f g : Frame} (inside : Grows f g) : Grows f (blockend f.offset g) := by
  have offset := inside.offset
  have maxoffset := inside.maxoffset
  refine ⟨le_rfl, ?_, fun p mem => ?_⟩
  · simp only [blockend]
    split <;> omega
  · rcases inside.locals p mem with mem | ⟨behind, within⟩
    · exact .inl mem
    · refine .inr ⟨behind, .inr ?_⟩
      simp only [blockend]
      split <;> omega

theorem grows_gencode (code : Code) (f : Frame) : Grows f (gencode code f) := by
  induction code generalizing f with
  | done => exact ⟨le_rfl, le_rfl, fun p mem => .inl mem⟩
  | auto size align positive rest ih => exact (grows_mkauto positive f).trans (ih _)
  | block inner rest ihInner ihRest => exact (grows_block (ihInner f)).trans (ihRest _)

namespace Function
variable (fn : Function)

theorem locals_within {p : Int × Nat} (mem : p ∈ fn.frame.locals) {k : Nat} (less : k < p.2) :
    p.1 + k ≤ 0 ∧ 1 - fn.framesize ≤ p.1 + k := by
  have inside := grows_gencode fn.body ⟨-1, 0, []⟩
  have whole : fn.frame = blockend (-1) (gencode fn.body ⟨-1, 0, []⟩) := rfl
  rw [framesize, whole] at *
  rcases inside.locals p mem with mem | ⟨behind, within⟩
  · cases mem
  · simp only [blockend] at *
    constructor
    · omega
    · split <;> omega

theorem framesize_positive : 0 < fn.framesize := by
  have grown := (grows_gencode (.block fn.body .done) ⟨-1, 0, []⟩).maxoffset
  unfold framesize frame
  simp only at grown
  omega

end Function

end LC3Tools.Emit
