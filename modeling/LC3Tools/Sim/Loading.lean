import LC3Tools.WordArray
import LC3Tools.Sim.Loader

/-! What `LoadData` does with every buffer: how many words it counts, where it stops, and
when it loads all of an image or nothing of it. -/
namespace LC3Tools.Sim
open Assembler LittleEndian

/-- What `LoadData` is given. Its length is a `uint32_t`. -/
structure Buffer where
  bytes : List (BitVec 8)
  short : bytes.length < 2 ^ 32

section
variable (b : Build)

namespace Buffer
variable (d : Buffer)

def HoldsHeader : Prop := loadRegSize b ≤ d.bytes.length

/-- The whole words behind the header. -/
def following : Nat := d.bytes.length / loadRegSize b - 1

def address : BitVec b.registerBits :=
  loadSwap b ((wordAt b.registerBits (loadRegSize b) d.bytes 0).getD 0)

def word (i : Nat) : BitVec b.registerBits :=
  loadSwap b ((wordAt b.registerBits (loadRegSize b) d.bytes (i + 1)).getD 0)

/-- The number of words as `LoadData` stores it. -/
def counted : Nat := d.following b % 2 ^ b.registerBits

/-- Every word has a cell of its own in a memory of this size. -/
def Fits (M : Nat) : Prop :=
  ∀ i < d.following b, (d.address b).toNat + i < M ∧ (d.address b).toNat + i < 2 ^ b.registerBits

end Buffer

end

section
variable {b : Build} {M : Nat} {d : Buffer}

/-- The host with the first i words of the buffer in memory. -/
def SimpleHost.loaded (h : SimpleHost M b.registerBits) (d : Buffer) (i : Nat) :
    SimpleHost M b.registerBits :=
  { h with memory := storedFrom h.memory (d.word b) (d.address b) i }

theorem wordAt_following {i : Nat} (inside : i < d.following b) :
    ∃ v, wordAt b.registerBits (loadRegSize b) d.bytes (i + 1) = some v ∧
      d.word b i = loadSwap b v := by
  have positive : 0 < loadRegSize b := by cases b <;> decide
  have room : (i + 1 + 1) * loadRegSize b ≤ d.bytes.length := by
    have whole := Nat.div_mul_le_self d.bytes.length (loadRegSize b)
    have more : i + 1 + 1 ≤ d.bytes.length / loadRegSize b := by
      unfold Buffer.following at inside
      omega
    exact (Nat.mul_le_mul_right _ more).trans whole
  have there : wordAt b.registerBits (loadRegSize b) d.bytes (i + 1) = some _ := if_pos room
  exact ⟨_, there, by rw [Buffer.word, there, Option.getD_some]⟩

theorem loadWords_step (h : SimpleHost M b.registerBits) {i left : Nat} (inside : i < d.following b)
    (small : i < 2 ^ b.registerBits) :
    loadWords b d.bytes (d.address b) (left + 1) i (h.loaded d i) =
      if (cell (d.address b) i).toNat < M then loadWords b d.bytes (d.address b) left (i + 1)
        (h.loaded d (i + 1))
      else some (.fileTooLarge, h.loaded d i) := by
  obtain ⟨v, there, word⟩ := wordAt_following inside
  rw [loadWords, there, Option.bind_some, ← word]
  have next : ({ h.loaded d i with
      memory := fun a => if a = cell (d.address b) i then d.word b i
        else (h.loaded d i).memory a } :
        SimpleHost M b.registerBits) = h.loaded d (i + 1) := by
    have memory := @storedFrom_succ _ h.memory (d.word b) (d.address b) i small
    exact congrArg (fun memory => (⟨memory, h.console⟩ : SimpleHost M b.registerBits)) memory
  by_cases accessible : (cell (d.address b) i).toNat < M
  · have wrote : Host.write (h.loaded d i) (d.word b i) (cell (d.address b) i) =
        (Access.success, h.loaded d (i + 1)) := by
      rw [← next]
      exact if_pos accessible
    rw [if_pos accessible]
    simp only [cell] at wrote
    simp only [wrote, if_true]
  · have refused : Host.write (h.loaded d i) (d.word b i) (cell (d.address b) i) =
        (Access.errorAddressOutOfRange, h.loaded d i) := if_neg accessible
    rw [if_neg accessible]
    simp only [cell] at refused
    simp only [refused, reduceCtorEq, if_false]

theorem loadWords_all (h : SimpleHost M b.registerBits) {i left : Nat}
    (inside : i + left ≤ d.following b)
    (small : i + left ≤ 2 ^ b.registerBits)
    (accessible : ∀ j, i ≤ j → j < i + left → (cell (d.address b) j).toNat < M) :
    loadWords b d.bytes (d.address b) left i (h.loaded d i) = some
      (.success, h.loaded d (i + left)) := by
  induction left generalizing i with
  | zero => rfl
  | succ left ih =>
    rw [loadWords_step h (by omega) (by omega), if_pos (accessible i le_rfl (by omega)),
      ih (by omega) (by omega) fun j low high => accessible j (by omega) (by omega)]
    rw [Nat.add_assoc, Nat.add_comm 1]

theorem loadWords_stops (h : SimpleHost M b.registerBits) {i left j : Nat}
    (inside : i + left ≤ d.following b)
    (small : i + left ≤ 2 ^ b.registerBits) (behind : i ≤ j) (before : j < i + left)
    (outside : M ≤ (cell (d.address b) j).toNat)
    (accessible : ∀ k, i ≤ k → k < j → (cell (d.address b) k).toNat < M) :
    loadWords b d.bytes (d.address b) left i (h.loaded d i) = some
      (.fileTooLarge, h.loaded d j) := by
  induction left generalizing i with
  | zero => omega
  | succ left ih =>
    rw [loadWords_step h (by omega) (by omega)]
    rcases Nat.eq_or_lt_of_le behind with rfl | later
    · rw [if_neg (by omega)]
    · rw [if_pos (accessible i le_rfl later)]
      exact ih (by omega) (by omega) later (by omega) fun k low high => accessible k (by omega) high

theorem loadLength_counted (d : Buffer) (header : d.HoldsHeader b) :
    ((((BitVec.ofNat 32 d.bytes.length).setWidth 64 - BitVec.ofNat 64 (loadRegSize b)) /
      BitVec.ofNat 64 (loadRegSize b)).setWidth b.registerBits).toNat = d.counted b := by
  have short := d.short
  have size : loadRegSize b = 2 ∨ loadRegSize b = 4 ∨ loadRegSize b = 8 := by
    cases b <;> decide
  unfold Buffer.HoldsHeader at header
  have data : ((BitVec.ofNat 32 d.bytes.length).setWidth 64 - BitVec.ofNat 64
    (loadRegSize b)).toNat =
      d.bytes.length - loadRegSize b := by
    rw [BitVec.toNat_sub, BitVec.toNat_setWidth, BitVec.toNat_ofNat, BitVec.toNat_ofNat]
    rcases size with size | size | size <;> rw [size] at header ⊢ <;> omega
  have unit : loadRegSize b % 2 ^ 64 = loadRegSize b := by
    rcases size with size | size | size <;> rw [size] <;> rfl
  rw [BitVec.toNat_setWidth, BitVec.toNat_udiv, data, BitVec.toNat_ofNat, unit, Buffer.counted,
    Buffer.following,
    Nat.div_eq_sub_div (by omega) header, Nat.add_sub_cancel]

theorem wordAt_header (header : d.HoldsHeader b) :
    ∃ v, wordAt b.registerBits (loadRegSize b) d.bytes 0 = some v ∧ d.address b = loadSwap b v := by
  have room : (0 + 1) * loadRegSize b ≤ d.bytes.length := by
    rw [Nat.zero_add, Nat.one_mul]
    exact header
  have there : wordAt b.registerBits (loadRegSize b) d.bytes 0 = some _ := if_pos room
  exact ⟨_, there, by rw [Buffer.address, there, Option.getD_some]⟩

theorem loadData_header {s : State (SimpleHost M b.registerBits) b.registerBits}
    (header : d.HoldsHeader b) :
    loadData b d.bytes s =
      (loadWords b d.bytes (d.address b) (d.counted b) 0 (s.host.loaded d 0)).map fun (res, h) =>
      if res = .success then (.success, (s.setHost h).setPC (d.address b))
        else (res, s.setHost h) := by
  obtain ⟨v, there, address⟩ := wordAt_header header
  rw [loadData, there, Option.bind_some, ← address]
  simp only [loadLength_counted d header]
  rfl

theorem cell_toNat_of_fits (fits : d.Fits b M) {i : Nat} (inside : i < d.following b) :
    (cell (d.address b) i).toNat = (d.address b).toNat + i := by
  have bound := (fits i inside).2
  rw [cell, BitVec.toNat_add, BitVec.toNat_ofNat, Nat.add_mod_mod, Nat.mod_eq_of_lt bound]

theorem counted_small (b : Build) (d : Buffer) : d.counted b < 2 ^ b.registerBits :=
  Nat.mod_lt _ (Nat.two_pow_pos _)

theorem counted_le (b : Build) (d : Buffer) : d.counted b ≤ d.following b := Nat.mod_le _ _

variable {s : State (SimpleHost M b.registerBits) b.registerBits}

theorem loadData_succeeds (header : d.HoldsHeader b)
    (accessible : ∀ i < d.counted b, (cell (d.address b) i).toNat < M) :
    loadData b d.bytes s =
      some (.success, (s.setHost (s.host.loaded d (d.counted b))).setPC (d.address b)) := by
  have small := counted_small b d
  have whole := counted_le b d
  rw [loadData_header header, loadWords_all s.host (by omega) (by omega) fun i _ less =>
    accessible i (by omega),
    Nat.zero_add]
  rfl

theorem loadData_stops (header : d.HoldsHeader b) {j : Nat} (before : j < d.counted b)
    (outside : M ≤ (cell (d.address b) j).toNat)
    (accessible : ∀ i < j, (cell (d.address b) i).toNat < M) :
    loadData b d.bytes s = some (.fileTooLarge, s.setHost (s.host.loaded d j)) := by
  have small := counted_small b d
  have whole := counted_le b d
  rw [loadData_header header, loadWords_stops s.host (by omega) (by omega) (Nat.zero_le j)
    (by omega) outside
    fun i _ less => accessible i less]
  rfl

theorem loadData_short (short : ¬ d.HoldsHeader b) : loadData b d.bytes s = none := by
  have none : wordAt b.registerBits (loadRegSize b) d.bytes 0 = none := by
    refine if_neg ?_
    rw [Nat.zero_add, Nat.one_mul]
    exact short
  rw [loadData, none, Option.bind_none]

end

section
variable (b : Build) {M : Nat} (d : Buffer) (s : State (SimpleHost M b.registerBits) b.registerBits)

/-- All of the image is in memory, nothing else has changed, and the program starts at
the address in the header. -/
structure LoadedAll (s' : State (SimpleHost M b.registerBits) b.registerBits) : Prop where
  words : ∀ i < d.following b, s'.host.memory (cell (d.address b) i) = d.word b i
  others : ∀ a, (∀ i < d.following b, a ≠ cell (d.address b) i) → s'.host.memory a = s.host.memory a
  pc : s'.regs.pc = d.address b

/-- `LoadData` succeeds if and only if the buffer holds an image that fits, and then it has
loaded all of it; otherwise memory and the program counter are as before. -/
def AllOrNothing : Prop :=
  ∃ res s', loadData b d.bytes s = some (res, s') ∧
    (res = .success ↔ d.HoldsHeader b ∧ d.Fits b M) ∧ (res = .success → LoadedAll b d s s') ∧
    (res ≠ .success → s'.host.memory = s.host.memory ∧ s'.regs.pc = s.regs.pc)

/-- The word is in its cell before anything is loaded. -/
def AlreadyThere (i : Nat) : Prop := s.host.memory (cell (d.address b) i) = d.word b i

variable {b d s}

theorem loaded_words (fits : d.Fits b M) (h : SimpleHost M b.registerBits)
    (behind : ∀ i, d.counted b ≤ i → i < d.following b →
      h.memory (cell (d.address b) i) = d.word b i) :
    ∀ i < d.following b, (h.loaded d (d.counted b)).memory (cell (d.address b) i) = d.word b i := by
  intro i inside
  have small : i < 2 ^ b.registerBits := by
    have bound := (fits i inside).2
    omega
  rcases Nat.lt_or_ge i (d.counted b) with counted | beyond
  · exact storedFrom_at counted small
  · exact (storedFrom_behind beyond small).trans (behind i beyond inside)

theorem success_iff (header : d.HoldsHeader b)
    (accessible : ∀ i < d.counted b, (cell (d.address b) i).toNat < M) :
    AllOrNothing b d s ↔
      d.Fits b M ∧ ∀ i, d.counted b ≤ i → i < d.following b → AlreadyThere b d s i := by
  have loaded := loadData_succeeds (s := s) header accessible
  constructor
  · rintro ⟨res, s', loaded', success, all, -⟩
    cases loaded.symm.trans loaded'
    have fits := (success.mp rfl).2
    refine ⟨fits, fun i beyond inside => ?_⟩
    have small : i < 2 ^ b.registerBits := by
      have bound := (fits i inside).2
      omega
    exact (storedFrom_behind beyond small).symm.trans ((all rfl).words i inside)
  · rintro ⟨fits, behind⟩
    refine ⟨_, _, loaded, iff_of_true rfl ⟨header, fits⟩, fun _ => ?_,
      fun failed => absurd rfl failed⟩
    refine ⟨loaded_words fits s.host behind, fun a apart => ?_, rfl⟩
    refine storedFrom_outside fun inside => ?_
    have here : a = cell (d.address b) (a - d.address b).toNat := by
      rw [cell, BitVec.ofNat_toNat, BitVec.setWidth_eq, BitVec.add_comm, BitVec.sub_add_cancel]
    exact apart _ (Nat.lt_of_lt_of_le inside (counted_le b d)) here

theorem failure_iff (header : d.HoldsHeader b) {j : Nat} (before : j < d.counted b)
    (outside : M ≤ (cell (d.address b) j).toNat)
    (accessible : ∀ i < j, (cell (d.address b) i).toNat < M) :
    AllOrNothing b d s ↔ ¬ d.Fits b M ∧ ∀ i < j, AlreadyThere b d s i := by
  have stopped := loadData_stops (s := s) header before outside accessible
  have inside : j < d.following b := Nat.lt_of_lt_of_le before (counted_le b d)
  have large : ¬ d.Fits b M := fun fits => by
    have room := (fits j inside).1
    rw [cell_toNat_of_fits fits inside] at outside
    omega
  have small : j ≤ 2 ^ b.registerBits := by
    have bound := counted_small b d
    omega
  have same : (s.host.loaded d j).memory = s.host.memory ↔ ∀ i < j, AlreadyThere b d s i :=
    storedFrom_same_iff small
  rw [and_iff_right large, ← same]
  constructor
  · rintro ⟨res, s', stopped', -, -, unchanged⟩
    cases stopped.symm.trans stopped'
    exact (unchanged (by decide)).1
  · intro kept
    exact ⟨_, _, stopped, iff_of_false (by decide) fun both => large both.2,
      fun success => (by cases success),
      fun _ => ⟨kept, rfl⟩⟩

variable (b d s)

/-- The words are stored one after the other until one does not fit, and only as many as
an address can count. -/
theorem loadData_iff : AllOrNothing b d s ↔ d.HoldsHeader b ∧
    ((d.Fits b M ∧ ∀ i, d.counted b ≤ i → i < d.following b → AlreadyThere b d s i) ∨
      (¬ d.Fits b M ∧ ∃ j < d.counted b, M ≤ (cell (d.address b) j).toNat ∧
        ∀ i < j, (cell (d.address b) i).toNat < M ∧ AlreadyThere b d s i)) := by
  by_cases header : d.HoldsHeader b
  · rw [and_iff_right header]
    by_cases accessible : ∀ i < d.counted b, (cell (d.address b) i).toNat < M
    · rw [success_iff header accessible, or_iff_left]
      rintro ⟨-, j, before, outside, -⟩
      exact absurd (accessible j before) (Nat.not_lt_of_ge outside)
    · push Not at accessible
      obtain ⟨j, before, outside, first⟩ : ∃ j < d.counted b, M ≤ (cell (d.address b) j).toNat ∧
          ∀ i < j, (cell (d.address b) i).toNat < M := by
        have first := Nat.find_spec accessible
        refine ⟨_, first.1, first.2, fun i less => ?_⟩
        have minimal := Nat.find_min accessible less
        exact Nat.lt_of_not_ge fun outside => minimal ⟨by omega, outside⟩
      rw [failure_iff header before outside first]
      constructor
      · rintro ⟨large, there⟩
        exact .inr ⟨large, j, before, outside, fun i less => ⟨first i less, there i less⟩⟩
      · rintro (⟨fits, -⟩ | ⟨large, k, -, outside', there⟩)
        · have inside : j < d.following b := Nat.lt_of_lt_of_le before (counted_le b d)
          rw [cell_toNat_of_fits fits inside] at outside
          exact absurd (fits j inside).1 (Nat.not_lt_of_ge outside)
        · refine ⟨large, fun i less => (there i ?_).2⟩
          by_contra far
          have later : k < j := by omega
          exact absurd (first k later) (Nat.not_lt_of_ge outside')
  · refine iff_of_false ?_ fun both => header both.1
    rintro ⟨res, s', loaded, -⟩
    rw [loadData_short header] at loaded
    cases loaded

end

/-- Two words for the last two addresses, of which `SimpleVM` has the first one. -/
def atTheEnd : Buffer := ⟨[0xff, 0xfe, 0x12, 0x34, 0x56, 0x78], by decide⟩

/-- A machine after a reset, with nothing in memory. -/
def cleared : State (SimpleHost 65535 Build.bit16.registerBits) Build.bit16.registerBits :=
  ⟨.initial _, fun _ => 0, [], [], []⟩

theorem half_loaded : ¬ AllOrNothing .bit16 atTheEnd cleared := by
  have stopped : loadData .bit16 atTheEnd.bytes cleared = some (.fileTooLarge, cleared.setHost _) :=
    loadData_stops (show Buffer.HoldsHeader .bit16 atTheEnd by unfold Buffer.HoldsHeader; decide)
      (show 1 < atTheEnd.counted .bit16 by decide) (by decide) (by decide)
  rintro ⟨res, s', loaded, -, -, unchanged⟩
  cases stopped.symm.trans loaded
  have word := congrFun (unchanged (by decide)).1 0xfffe
  revert word
  decide

end LC3Tools.Sim
