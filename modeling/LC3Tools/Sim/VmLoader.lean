import LC3Tools.Sim.Loading
import LC3Tools.Sim.Vm

/-! `vm_load_data` of the C simulator in its 16-bit build, against `LoadData` in front of
`SimpleVM`. -/
namespace LC3Tools.Vm
open Sim Assembler LittleEndian

/-- `vm_load_result`, of what `vm_load_data` gives back itself. -/
inductive LoadResult where
  | success | inputTooLarge
  deriving DecidableEq, Repr

/-- How a call ends: with a result, or in `assert`, which no build switches off. -/
inductive LoadOutcome where
  | returned (result : LoadResult) (vm : VmImpl)
  | aborted

/-- The loop with the words that are left, the index of the source and that of the
destination. The macro for the swap is the one of the other simulator. -/
def vmLoadWords (data : List (BitVec 8)) : Nat → Nat → Nat → (BitVec 16 → BitVec 16) →
    Option (BitVec 16 → BitVec 16)
  | 0, _, _, mem => some mem
  | left + 1, source, dest, mem =>
    (wordAt 16 2 data source).bind fun word =>
      vmLoadWords data left (source + 1) (dest + 1) fun a =>
        if a.toNat = dest then wordSwap16 word else mem a

/-- `vm_load_data`. An address and a length are added in `size_t`. -/
def vmLoadData (vm : VmImpl) (data : List (BitVec 8)) : Option LoadOutcome :=
  (wordAt 16 2 data 0).bind fun header =>
    let loadAddr := wordSwap16 header
    let loadLength : BitVec 64 := (BitVec.ofNat 64 data.length - 2) / 2
    if ¬ loadAddr.setWidth 64 + loadLength < BitVec.ofNat 64 addrMax then some .aborted
    else if loadAddr.toNat + loadLength.toNat ≥ addrMax then some (.returned .inputTooLarge vm)
    else (vmLoadWords data loadLength.toNat 1 loadAddr.toNat vm.mem).map fun mem =>
      .returned .success { vm with mem := mem, pc := loadAddr }

/-- The address in the header of an image of 16-bit words, and the cells behind it. -/
def target (d : Buffer) (i : Nat) : BitVec 16 :=
  d.address .bit16 + BitVec.ofNat Build.bit16.registerBits i

/-- Both load the image to the same addresses and start at the same one, or both return
a failure. -/
def LoadersAgree (d : Buffer) (vm : VmImpl) (s : State (SimpleHost 65535 16) 16) : Prop :=
  (∃ vm' s', vmLoadData vm d.bytes = some (.returned .success vm') ∧
    loadData .bit16 d.bytes s = some (.success, s') ∧ vm'.pc = s'.regs.pc ∧
    ∀ i < d.following .bit16, vm'.mem (target d i) = s'.host.memory (target d i)) ∨
  ∃ res vm' res' s', vmLoadData vm d.bytes = some (.returned res vm') ∧ res ≠ .success ∧
    loadData .bit16 d.bytes s = some (res', s') ∧ res' ≠ .success

section
variable {data : List (BitVec 8)} {address : BitVec 16} {word : Nat → BitVec 16} {n : Nat}

theorem vmLoadWords_stored
    (words : ∀ i < n, ∃ v, wordAt 16 2 data (i + 1) = some v ∧ word i = wordSwap16 v)
    (room : address.toNat + n < 2 ^ 16) (mem : BitVec 16 → BitVec 16) {i left : Nat}
    (inside : i + left = n) :
    vmLoadWords data left (i + 1) (address.toNat + i) (storedFrom mem word address i) =
      some (storedFrom mem word address n) := by
  induction left generalizing i with
  | zero =>
    rw [← inside]
    rfl
  | succ left ih =>
    obtain ⟨v, there, swapped⟩ := words i (by omega)
    have same (a : BitVec 16) : a.toNat = address.toNat + i ↔ a = address + BitVec.ofNat 16 i := by
      rw [← BitVec.toNat_inj, BitVec.toNat_add, BitVec.toNat_ofNat, Nat.add_mod_mod,
        Nat.mod_eq_of_lt (by omega)]
    have rest := ih (i := i + 1) (by omega)
    rw [← storedFrom_succ (by omega), swapped] at rest
    rw [vmLoadWords, there, Option.bind_some]
    simp only [same]
    exact rest

end

section
variable {d : Buffer}

theorem loadLength_following (header : d.HoldsHeader .bit16) :
    ((BitVec.ofNat 64 d.bytes.length - 2) / 2).toNat = d.following .bit16 := by
  have short := d.short
  have room : 2 ≤ d.bytes.length := header
  have data : (BitVec.ofNat 64 d.bytes.length - 2).toNat = d.bytes.length - 2 := by
    have two : (2 : BitVec 64).toNat = 2 := rfl
    rw [BitVec.toNat_sub, BitVec.toNat_ofNat, two]
    omega
  rw [BitVec.toNat_udiv, data]
  change (d.bytes.length - 2) / 2 = d.bytes.length / 2 - 1
  omega

theorem vmLoadData_header (vm : VmImpl) (header : d.HoldsHeader .bit16) : vmLoadData vm d.bytes =
    if (d.address .bit16).toNat + d.following .bit16 < addrMax then
      some (.returned .success { vm with
        mem := storedFrom vm.mem (d.word .bit16) (d.address .bit16) (d.following .bit16), pc :=
          d.address .bit16 })
    else some .aborted := by
  obtain ⟨v, there, address⟩ : ∃ v : BitVec 16, wordAt 16 2 d.bytes 0 = some v ∧
    d.address .bit16 = wordSwap16 v := wordAt_header header
  have words : ∀ i < d.following .bit16, ∃ v, wordAt 16 2 d.bytes (i + 1) = some v ∧
      d.word .bit16 i = wordSwap16 v := fun i inside => wordAt_following inside
  have length := loadLength_following header
  have few : d.following .bit16 < 2 ^ 32 :=
    (Nat.sub_le _ _).trans_lt (Nat.lt_of_le_of_lt (Nat.div_le_self _ _) d.short)
  rw [vmLoadData, there, Option.bind_some]
  generalize d.word .bit16 = word at words ⊢
  generalize d.address .bit16 = address' at address ⊢
  cases address
  generalize d.following .bit16 = n at length few words ⊢
  generalize (BitVec.ofNat 64 d.bytes.length - 2) / 2 = loadLength at length ⊢
  generalize wordSwap16 v = a
  have bound := a.isLt
  have guard : a.setWidth 64 + loadLength < BitVec.ofNat 64 addrMax ↔ a.toNat + n < addrMax := by
    rw [BitVec.lt_def, BitVec.toNat_add, BitVec.toNat_setWidth, length, BitVec.toNat_ofNat, addrMax]
    omega
  simp only [guard, length]
  by_cases small : a.toNat + n < addrMax
  · have room : a.toNat + n < 2 ^ 16 := small.trans (by decide)
    have stored := vmLoadWords_stored words room vm.mem (Nat.zero_add n)
    rw [if_neg (not_not.mpr small), if_neg (Nat.not_le_of_lt small)]
    exact (congrArg (Option.map _) stored).trans (if_pos small).symm
  · rw [if_pos small]
    exact (if_neg small).symm

end

/-- The C simulator accepts an image that ends before the last cell, and `assert` sees all
others first. -/
theorem loaders_agree_iff {d : Buffer} (header : d.HoldsHeader .bit16) (vm : VmImpl)
    (s : State (SimpleHost 65535 16) 16) :
    LoadersAgree d vm s ↔ (d.address .bit16).toNat + d.following .bit16 < 65535 := by
  have loadedC := vmLoadData_header vm header
  constructor
  · intro agree
    by_contra large
    have aborts : vmLoadData vm d.bytes = some .aborted := loadedC.trans (if_neg large)
    rcases agree with ⟨vm', s', returned, -⟩ | ⟨res, vm', res', s', returned, -⟩
    · cases aborts.symm.trans returned
    · cases aborts.symm.trans returned
  · intro small
    have returned := loadedC.trans (if_pos small)
    have fits : d.Fits .bit16 65535 := by
      intro i inside
      change _ ∧ _ < 2 ^ 16
      omega
    have counted : d.counted .bit16 = d.following .bit16 :=
      Nat.mod_eq_of_lt (show d.following .bit16 < 2 ^ 16 by omega)
    have accessible : ∀ i < d.counted .bit16, (cell (d.address .bit16) i).toNat < 65535 := by
      intro i less
      have inside := Nat.lt_of_lt_of_eq less counted
      rw [cell_toNat_of_fits fits inside]
      exact (fits i inside).1
    have loaded := loadData_succeeds (s := s) header accessible
    refine .inl ⟨_, _, returned, loaded, rfl, fun i inside => ?_⟩
    have small₁₆ : i < 2 ^ 16 := by omega
    have here : storedFrom vm.mem (d.word .bit16) (d.address .bit16) (d.following .bit16)
      (target d i) =
        d.word .bit16 i := storedFrom_at inside small₁₆
    exact here.trans (loaded_words fits s.host
      (fun k behind less => absurd less (by omega)) i inside).symm

theorem loaders_agree_below :
    LoadersAgree ⟨[0xff, 0xfd, 0x12, 0x34], by decide⟩ ⟨fun _ => 0, fun _ => 0, 0, 0, [], [], []⟩
    ⟨.initial 16, fun _ => 0, [], [], []⟩ :=
  (loaders_agree_iff (by unfold Buffer.HoldsHeader; decide) _ _).mpr (by decide)

theorem last_cell_aborts : ¬ LoadersAgree ⟨[0xff, 0xfe, 0x12, 0x34], by decide⟩
    ⟨fun _ => 0, fun _ => 0, 0, 0, [], [], []⟩ ⟨.initial 16, fun _ => 0, [], [], []⟩ := by
  have aborts : vmLoadData ⟨fun _ => 0, fun _ => 0, 0, 0, [], [], []⟩ [0xff, 0xfe, 0x12, 0x34] =
    some .aborted := by
    have header : Buffer.HoldsHeader .bit16 ⟨[0xff, 0xfe, 0x12, 0x34], by decide⟩ := by
      unfold Buffer.HoldsHeader
      decide
    exact (vmLoadData_header _ header).trans (if_neg (by decide))
  rintro (⟨vm', s', returned, -⟩ | ⟨res, vm', res', s', returned, -⟩)
  · cases aborts.symm.trans returned
  · cases aborts.symm.trans returned

end LC3Tools.Vm
