import LC3Tools.Assembler.Build
import LC3Tools.LittleEndian
import LC3Tools.Sim.Console
import Mathlib.Tactic.IntervalCases

/-! `Processor::LoadData`. The four builds of the simulator are those of the assembler:
`sim_types.h` tests the same macros as `types.h`, but defines its own swaps. -/
namespace LC3Tools.Sim
open Assembler LittleEndian

/-- `SWAP_16` of a register, which is promoted to `int` first. -/
def wordSwap16 (val : BitVec 16) : BitVec 16 :=
  ((val.setWidth 32 <<< 8) ||| (val.setWidth 32).sshiftRight 8).setWidth 16

def wordSwap32 (val : BitVec 32) : BitVec 32 :=
  (val <<< 24) ||| ((val <<< 8) &&& 0x00ff0000) ||| ((val >>> 8) &&& 0x0000ff00) ||| (val >>> 24)

/-- `LC3_SWAP` of the simulator, applied to the unsigned register type. -/
def loadSwap (b : Build) (val : BitVec b.registerBits) : BitVec b.registerBits :=
  match b, val with
  | .bit16, val => wordSwap16 val
  | .bit32, val => wordSwap32 val
  | .bit32Wide, val => wordSwap32 val
  | .bit64Wide, val => val

/-- What the two swaps make of a value. A value of the 16-bit build picks up the byte
above its word in its low byte. -/
theorem wordSwap16_swap16 (v : BitVec 64) :
    wordSwap16 (Build.swap16 v) = v.setWidth 16 ||| ((v >>> 16).setWidth 8).setWidth 16 := by
  unfold wordSwap16 Build.swap16
  apply BitVec.eq_of_getLsbD_eq
  intro i inside
  interval_cases i <;> simp [BitVec.getElem_sshiftRight, Bool.or_comm]

theorem wordSwap32_swap32 (v : BitVec 64) : wordSwap32 (Build.swap32 v) = v.setWidth 32 := by
  unfold wordSwap32 Build.swap32
  apply BitVec.eq_of_getLsbD_eq
  intro i inside
  interval_cases i <;> simp [BitVec.getElem_sshiftRight]

/-- The byte above the word has no bit that the low byte lacks. -/
def SurvivesSwap16 (v : BitVec 64) : Prop :=
  v.setWidth 16 ||| ((v >>> 16).setWidth 8).setWidth 16 = v.setWidth 16

instance (v : BitVec 64) : Decidable (SurvivesSwap16 v) :=
  inferInstanceAs (Decidable (_ = _))

theorem or_ones_iff (v : BitVec 64) :
    v.setWidth 16 ||| 0xff#16 = v.setWidth 16 ↔ v.setWidth 8 = BitVec.allOnes 8 := by
  constructor
  · intro same
    apply BitVec.eq_of_getLsbD_eq
    intro i inside
    have bit := congrArg (fun x => BitVec.getLsbD x i) same
    interval_cases i <;> simpa using bit
  · intro same
    apply BitVec.eq_of_getLsbD_eq
    intro i inside
    have bit := congrArg (fun x => BitVec.getLsbD x i) same
    interval_cases i <;> simp at bit ⊢ <;> exact bit

theorem survivesSwap16_iff {v : BitVec 64} (low : -0x8000 ≤ v.toInt) (high : v.toInt < 0x10000) :
    SurvivesSwap16 v ↔ 0 ≤ v.toInt ∨ v.toInt % 256 = 255 := by
  have value := BitVec.toInt_eq_toNat_cond v
  have bound := v.isLt
  have upper : ((v >>> 16).setWidth 8).setWidth 16 = if v.toInt < 0 then 0xff#16 else 0 := by
    apply BitVec.eq_of_toNat_eq
    simp only [BitVec.toNat_setWidth, BitVec.toNat_ushiftRight, Nat.shiftRight_eq_div_pow]
    split at value <;> split <;> simp <;> omega
  have byte : v.setWidth 8 = BitVec.allOnes 8 ↔ v.toInt % 256 = 255 := by
    rw [← BitVec.toNat_inj, BitVec.toNat_setWidth, BitVec.toNat_allOnes]
    split at value <;> omega
  rw [SurvivesSwap16, upper]
  split
  · rw [or_ones_iff, byte]
    omega
  · simp
    omega
/-- `sizeof(RegLoadType)`. -/
def loadRegSize (b : Build) : Nat := b.registerBits / 8

/-- `LoadResult`. The other two are given by `LoadObjFile` or by nobody. -/
inductive LoadResult where
  | success | fileTooLarge
  deriving DecidableEq, Repr

section
variable {H : Type} (b : Build) [Host H b.registerBits]

/-- The loop from index `i` on with the words that are left; none for a read behind the data. -/
def loadWords (data : List (BitVec 8)) (loadAddr : BitVec b.registerBits) :
    Nat → Nat → H → Option (LoadResult × H)
  | 0, _, h => some (.success, h)
  | left + 1, i, h =>
    (wordAt b.registerBits (loadRegSize b) data (i + 1)).bind fun word =>
      let (res, h') := Host.write h (loadSwap b word) (loadAddr + BitVec.ofNat _ i)
      if res = .success then loadWords data loadAddr left (i + 1) h' else some (.fileTooLarge, h')

/-- `LoadData`. The length is computed in `size_t` and stored in an address. -/
def loadData (data : List (BitVec 8)) (s : State H b.registerBits) :
    Option (LoadResult × State H b.registerBits) :=
  (wordAt b.registerBits (loadRegSize b) data 0).bind fun header =>
    let loadAddr := loadSwap b header
    let size := BitVec.ofNat 64 (loadRegSize b)
    let dataLen := (BitVec.ofNat 32 data.length).setWidth 64
    let loadLength : BitVec b.registerBits := ((dataLen - size) / size).setWidth _
    (loadWords b data loadAddr loadLength.toNat 0 s.host).map fun (res, h) =>
      if res = .success then (.success, (s.setHost h).setPC loadAddr) else (res, s.setHost h)

end

/-! The loop over the words of an array, into an accessible part of `SimpleVM`. -/
section
variable {b : Build} {M : Nat} {header : BitVec b.registerBits}
  {words : List (BitVec b.registerBits)} {loadAddr : BitVec b.registerBits}

theorem registerBits_whole (b : Build) : 8 * loadRegSize b = b.registerBits := by
  cases b <;> rfl

/-- The address of a word in the array. -/
def cell (loadAddr : BitVec b.registerBits) (i : Nat) : BitVec b.registerBits :=
  loadAddr + BitVec.ofNat _ i

theorem cell_injective {i j : Nat} (hi : i < 2 ^ b.registerBits) (hj : j < 2 ^ b.registerBits)
    (same : cell loadAddr i = cell loadAddr j) : i = j := by
  have offsets : BitVec.ofNat b.registerBits i = BitVec.ofNat b.registerBits j :=
    BitVec.add_right_inj _ |>.mp same
  have := congrArg BitVec.toNat offsets
  simpa [BitVec.toNat_ofNat, Nat.mod_eq_of_lt hi, Nat.mod_eq_of_lt hj] using this

/-- What the loop leaves in memory from index `i` on. -/
structure Stored (words : List (BitVec b.registerBits)) (loadAddr : BitVec b.registerBits)
    (i : Nat) (h h' : SimpleHost M b.registerBits) : Prop where
  stored : ∀ j (inside : j < words.length), i ≤ j →
    h'.memory (cell loadAddr j) = loadSwap b words[j]
  other : ∀ a, (∀ j, i ≤ j → j < words.length → a ≠ cell loadAddr j) → h'.memory a = h.memory a

theorem loadWords_stored (header : BitVec b.registerBits)
    (short : words.length ≤ 2 ^ b.registerBits)
    (room : ∀ i, i < words.length → (cell loadAddr i).toNat < M) (left i : Nat)
    (rest : i + left = words.length) (h : SimpleHost M b.registerBits) :
    ∃ h', loadWords b (ofWords (loadRegSize b) (header :: words)) loadAddr left i h =
        some (.success, h') ∧ Stored words loadAddr i h h' := by
  induction left generalizing i h with
  | zero =>
    refine ⟨h, rfl, ?_, fun _ _ => rfl⟩
    intro j inside behind
    omega
  | succ left ih =>
    have inside : i < words.length := by omega
    have word : wordAt b.registerBits (loadRegSize b) (ofWords (loadRegSize b) (header :: words))
        (i + 1) = some words[i] :=
      wordAt_ofWords (registerBits_whole b) (header :: words) (i + 1) (Nat.succ_lt_succ inside)
    let g : SimpleHost M b.registerBits :=
      { h with memory := fun a => if a = cell loadAddr i then loadSwap b words[i] else h.memory a }
    have wrote : Host.write h (loadSwap b words[i]) (cell loadAddr i) = (Access.success, g) :=
      if_pos (room i inside)
    obtain ⟨h', loaded, stored, other⟩ := ih (i + 1) (by omega) g
    refine ⟨h', ?_, ?_, ?_⟩
    · rw [loadWords, word, Option.bind_some]
      change (if (Host.write h (loadSwap b words[i]) (cell loadAddr i)).1 = Access.success then
        loadWords b _ loadAddr left (i + 1) (Host.write h (loadSwap b words[i]) (cell loadAddr i)).2
        else some (.fileTooLarge, (Host.write h (loadSwap b words[i]) (cell loadAddr i)).2)) = _
      rw [wrote, if_pos rfl]
      exact loaded
    · intro j inside' behind
      rcases Nat.eq_or_lt_of_le behind with rfl | later
      · have kept := other (cell loadAddr i) fun k after within same => by
          have := cell_injective (by omega) (by omega) same
          omega
        rw [kept]
        exact if_pos rfl
      · exact stored j inside' later
    · intro a apart
      rw [other a fun j after within => apart j (by omega) within]
      exact if_neg (apart i (Nat.le_refl _) inside)

theorem loadLength_eq {n : Nat} (short : n < 0x10000) :
    ((((BitVec.ofNat 32 ((n + 1) * loadRegSize b)).setWidth 64 - BitVec.ofNat 64 (loadRegSize b)) /
      BitVec.ofNat 64 (loadRegSize b)).setWidth b.registerBits).toNat = n := by
  have size : loadRegSize b = 2 ∨ loadRegSize b = 4 ∨ loadRegSize b = 8 := by
    cases b <;> decide
  have wide : 2 ^ 16 ≤ 2 ^ b.registerBits := by
    cases b <;> decide
  have data : ((BitVec.ofNat 32 ((n + 1) * loadRegSize b)).setWidth 64 -
      BitVec.ofNat 64 (loadRegSize b)).toNat = n * loadRegSize b := by
    rw [BitVec.toNat_sub, BitVec.toNat_setWidth, BitVec.toNat_ofNat, BitVec.toNat_ofNat]
    rcases size with size | size | size <;> rw [size] <;> omega
  rw [BitVec.toNat_setWidth, BitVec.toNat_udiv, data, BitVec.toNat_ofNat]
  have unit : loadRegSize b % 2 ^ 64 = loadRegSize b := by
    rcases size with size | size | size <;> rw [size] <;> rfl
  rw [unit, Nat.mul_div_cancel n (by omega)]
  exact Nat.mod_eq_of_lt (by omega)

theorem loadData_stored (s : State (SimpleHost M b.registerBits) b.registerBits)
    (short : words.length < 0x10000)
    (room : ∀ i, i < words.length → (cell (loadSwap b header) i).toNat < M) :
    ∃ h', loadData b (ofWords (loadRegSize b) (header :: words)) s =
        some (.success, (s.setHost h').setPC (loadSwap b header)) ∧
      Stored words (loadSwap b header) 0 s.host h' := by
  have wide : 2 ^ 16 ≤ 2 ^ b.registerBits := by
    cases b <;> decide
  obtain ⟨h', loaded, stored⟩ := loadWords_stored header (by omega) room words.length 0
    (Nat.zero_add _) s.host
  refine ⟨h', ?_, stored⟩
  have first : wordAt b.registerBits (loadRegSize b) (ofWords (loadRegSize b) (header :: words)) 0 =
      some header :=
    wordAt_ofWords (registerBits_whole b) (header :: words) 0 (Nat.zero_lt_succ _)
  rw [loadData, first, Option.bind_some]
  simp only [length_ofWords, List.length_cons, loadLength_eq short, loaded, Option.map_some,
    if_true]

theorem loadData_pc {data : List (BitVec 8)}
    {s s' : State (SimpleHost M b.registerBits) b.registerBits}
    (first : wordAt b.registerBits (loadRegSize b) data 0 = some header)
    (loaded : loadData b data s = some (.success, s')) : s'.regs.pc = loadSwap b header := by
  rw [loadData, first, Option.bind_some] at loaded
  obtain ⟨⟨res, h⟩, -, done⟩ := Option.map_eq_some_iff.mp loaded
  simp only at done
  split at done
  · cases done
    rfl
  · rename_i failed
    cases done
    exact absurd rfl failed

end

end LC3Tools.Sim
