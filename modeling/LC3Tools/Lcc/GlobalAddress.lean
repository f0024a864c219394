import LC3Tools.Lcc.Constants

/-! `calculate_address` of `lc3pp`, which replaces a line `.LC3GLOBAL`. -/
namespace LC3Tools.Emit

/-- The part of the offset that the load can take itself. -/
def ldrOffset (offset : Int) (withLDR : Bool) : Int :=
  if withLDR = false then 0 else if 0 < offset then min offset 31 else max offset (-32)

def loadWith (withLDR : Bool) (dst base : Fin 8) (k : Int) : List Line :=
  if withLDR then [.load dst base k] else []

/-- The `while` loops write one bounded addition after the other, or nothing. A rest that
takes more than three of them is loaded from a constant, together with what the load
could have taken. -/
def calculateAddress (dst base : Fin 8) (offset : Int) (withLDR : Bool) : List Line :=
  let rest := offset - ldrOffset offset withLDR
  if offset = 0 then (if withLDR then [] else [.addimm dst base 0]) ++ loadWith withLDR dst base 0
  else if rest = 0 then loadWith withLDR dst base (ldrOffset offset withLDR)
  else if 0 < offset ∧ rest ≤ 15 * 3 then
    addimms dst base 15 1 rest ++ loadWith withLDR dst dst (ldrOffset offset withLDR)
  else if offset < 0 ∧ -16 * 3 ≤ rest then
    addimms dst base 16 (-1) (-rest) ++ loadWith withLDR dst dst (ldrOffset offset withLDR)
  else constant dst base offset ++ loadWith withLDR dst dst 0

/-- What the sequence computes: an address, or the word there. -/
def accessed (m : Machine) (base : Fin 8) (offset : Int) (withLDR : Bool) : Word :=
  if withLDR then m.mem (m.reg base + BitVec.ofInt 16 offset)
    else m.reg base + BitVec.ofInt 16 offset

section
variable {globals : String → Word} {m : Machine} {dst base : Fin 8}

theorem loadWith_plain (withLDR : Bool) (dst base : Fin 8) (k : Int) :
    (loadWith withLDR dst base k).all Line.plain := by
  cases withLDR <;> rfl

theorem loadWith_behind {i k offset : Int} {withLDR : Bool} {code : List Line}
    (address : Executes globals code m (m.set dst (m.reg base + BitVec.ofInt 16 i)))
    (closed : Closed code)
    (whole : i + k = offset) (none : withLDR = false → k = 0) :
    Executes globals (code ++ loadWith withLDR dst dst k) m
      (m.set dst (accessed m base offset withLDR)) := by
  have executes := address.before closed (loadWith_plain withLDR dst dst k)
  subst whole
  cases withLDR with
  | false =>
    rw [none rfl] at executes ⊢
    rw [Int.add_zero]
    exact executes
  | true =>
    have loaded : run globals (loadWith true dst dst k)
      (m.set dst (m.reg base + BitVec.ofInt 16 i)) =
        m.set dst (accessed m base (i + k) true) := by
      simp only [loadWith, accessed, if_true, run_cons, run_nil, Line.effect, Machine.set_same,
        Machine.set_set,
        Machine.set_mem, BitVec.ofInt_add, BitVec.add_assoc]
    rw [loaded] at executes
    exact executes

theorem calculateAddress_runs (apart : base ≠ dst) (offset : Int) (withLDR : Bool) :
    Executes globals (calculateAddress dst base offset withLDR) m
      (m.set dst (accessed m base offset withLDR)) := by
  have none : withLDR = false → ldrOffset offset withLDR = 0 := fun no => if_pos no
  unfold calculateAddress
  dsimp only
  split
  · rename_i zero
    subst zero
    cases withLDR <;> exact executes_straight rfl
  · split
    · rename_i all
      have loads : withLDR = true := by
        cases withLDR with
        | true => rfl
        | false =>
          rw [none rfl] at all
          omega
      subst loads
      have part : ldrOffset offset true = offset := by omega
      rw [part]
      exact executes_straight rfl
    · split
      · refine loadWith_behind (addimms_runs dst base 15 1 _)
          (closed_of_plain (addimms_plain ..)) ?_ none
        omega
      · split
        · refine loadWith_behind (addimms_runs dst base 16 (-1) _)
            (closed_of_plain (addimms_plain ..)) ?_ none
          omega
        · exact loadWith_behind (constant_runs apart offset) (constant_closed dst base offset)
            (Int.add_zero _)
            fun _ => rfl

theorem calculateAddress_closed (dst base : Fin 8) (offset : Int) (withLDR : Bool) :
    Closed (calculateAddress dst base offset withLDR) := by
  have loads (dst base : Fin 8) (k : Int) : Closed (loadWith withLDR dst base k) :=
    closed_of_plain (loadWith_plain withLDR dst base k)
  have adds (far : Nat) [NeZero far] (sign i : Int) : Closed (addimms dst base far sign i) :=
    closed_of_plain (addimms_plain dst base far sign i)
  unfold calculateAddress
  dsimp only
  split
  · cases withLDR <;> exact closed_of_plain rfl
  · split
    · exact loads dst base _
    · split
      · exact (adds 15 1 _).append (loads dst dst _)
      · split
        · exact (adds 16 (-1) _).append (loads dst dst _)
        · exact (constant_closed dst base offset).append (loads dst dst 0)

theorem loadWith_fits {withLDR : Bool} {k : Int} (low : -32 ≤ k) (high : k ≤ 31) :
    ∀ line ∈ loadWith withLDR dst base k, line.Fits := by
  cases withLDR with
  | false => simp [loadWith]
  | true => simpa [loadWith, Line.Fits] using ⟨low, high⟩

theorem ldrOffset_bounds (offset : Int) (withLDR : Bool) :
    -32 ≤ ldrOffset offset withLDR ∧ ldrOffset offset withLDR ≤ 31 ∧
      (0 < offset → ldrOffset offset withLDR ≤ offset) ∧
      (offset < 0 → offset ≤ ldrOffset offset withLDR) := by
  unfold ldrOffset
  split
  · omega
  · split <;> omega

theorem calculateAddress_fits (offset : Int) (withLDR : Bool) :
    (∀ line ∈ calculateAddress dst base offset withLDR, line.Fits) ↔ -0x8000 ≤ offset ∧
      offset ≤ 0xffff := by
  obtain ⟨low, high, below, above⟩ := ldrOffset_bounds offset withLDR
  have loads (base : Fin 8) : ∀ line ∈ loadWith withLDR dst base (ldrOffset offset withLDR),
    line.Fits :=
    loadWith_fits low high
  unfold calculateAddress
  dsimp only
  split
  · refine iff_of_true ?_ (by omega)
    cases withLDR <;> simp [loadWith, Line.Fits]
  · split
    · exact iff_of_true (loads base) (by omega)
    · split
      · exact iff_of_true (List.forall_mem_append.mpr
          ⟨addimms_fits_up dst base (by omega), loads dst⟩) (by omega)
      · split
        · exact iff_of_true (List.forall_mem_append.mpr
            ⟨addimms_fits_down dst base (by omega), loads dst⟩)
            (by omega)
        · rw [List.forall_mem_append, constant_fits]
          exact and_iff_left (loadWith_fits (by decide) (by decide))

end

end LC3Tools.Emit
