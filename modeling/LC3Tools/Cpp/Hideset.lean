import Mathlib.Data.Finset.Card
import Mathlib.Data.Finset.Powerset
import Mathlib.Data.List.GetD
import Mathlib.Data.List.Infix
import Mathlib.Data.Finset.Dedup

/-! The hidesets of `hideset.c`: sets of macros in the order of their addresses, each of which is
kept once and known by its number. -/
namespace LC3Tools.Cpp

abbrev Hidesets := List (List Nat)

def HSSIZ : Nat := 32

def inserths : List Nat → Nat → List Nat
  | [], np => [np]
  | h :: shs, np => if h < np then h :: inserths shs np else if h = np then h :: shs
    else np :: h :: shs

def Hidesets.set (hidesets : Hidesets) (hs : Nat) : List Nat := hidesets.getD hs []

/-- A set that has grown too large is not kept: the old one stands for it. -/
def newhideset (hidesets : Hidesets) (hs np : Nat) : Hidesets × Nat :=
  let nhs := inserths (hidesets.set hs) np
  match hidesets.findIdx? (· = nhs) with
  | some i => (hidesets, i)
  | none => if nhs.length + 1 ≥ HSSIZ then (hidesets, hs) else (hidesets ++ [nhs], hidesets.length)

def unionhideset (hidesets : Hidesets) (hs1 hs2 : Nat) : Hidesets × Nat :=
  (hidesets.set hs2).foldl (fun s np => newhideset s.1 s.2 np) (hidesets, hs1)

def iniths : Hidesets := [[]]

/-- The number of a hideset in a token, an `unsigned short` -/
def stored (hs : Nat) : Nat := hs % 65536

variable {hidesets later : Hidesets} {hs np : Nat} {s : List Nat} {M : Finset Nat}

theorem mem_inserths {x : Nat} : x ∈ inserths s np ↔ x = np ∨ x ∈ s := by
  induction s with
  | nil => simp [inserths]
  | cons h s ih =>
    unfold inserths
    split
    · rw [List.mem_cons, List.mem_cons, ih]
      exact or_left_comm
    split
    · rename_i same
      rw [List.mem_cons, same]
      exact ⟨.inr, fun either => either.elim .inl id⟩
    · exact List.mem_cons

theorem inserths_sorted (sorted : s.Pairwise (· < ·)) : (inserths s np).Pairwise (· < ·) := by
  induction s with
  | nil => exact List.pairwise_singleton ..
  | cons h s ih =>
    obtain ⟨least, rest⟩ := List.pairwise_cons.mp sorted
    unfold inserths
    split
    · rename_i below
      refine List.pairwise_cons.mpr ⟨fun x mem => ?_, ih rest⟩
      rcases mem_inserths.mp mem with rfl | mem
      · exact below
      · exact least x mem
    split
    · exact sorted
    · refine List.pairwise_cons.mpr ⟨fun x mem => ?_, sorted⟩
      rcases List.mem_cons.mp mem with rfl | mem
      · omega
      · have above := least x mem
        omega

theorem set_extended (extends_ : hidesets <+: later) (valid : hs < hidesets.length) :
    later.set hs = hidesets.set hs := by
  obtain ⟨more, rfl⟩ := extends_
  unfold Hidesets.set
  rw [List.getD_append _ _ _ _ valid]

theorem prefix_newhideset : hidesets <+: (newhideset hidesets hs np).1 := by
  unfold newhideset
  dsimp only
  split
  · exact List.prefix_refl _
  split
  · exact List.prefix_refl _
  · exact List.prefix_append ..

/-- A set of macros among `M`. -/
abbrev Own (M : Finset Nat) (s : List Nat) : Prop := ∀ x ∈ s, x ∈ M

/-- The empty set is the first one, and all of them are in order and different. -/
structure Distinct (hidesets : Hidesets) : Prop where
  first : hidesets[0]? = some []
  sorted : ∀ s ∈ hidesets, s.Pairwise (· < ·)
  nodup : hidesets.Nodup

/-- There are numbers of 16 bits for all the sets of macros among `M`, beside the other sets. -/
structure WellFormed (M : Finset Nat) (hidesets : Hidesets) : Prop extends Distinct hidesets where
  room : (hidesets.filter fun s => ¬ Own M s).length + 2 ^ M.card ≤ 65536

theorem Distinct.wellFormed (distinct : Distinct hidesets)
    (room : hidesets.length + 2 ^ M.card ≤ 65537) :
    WellFormed M hidesets where
  toDistinct := distinct
  room := by
    have among : [] ∈ hidesets := List.mem_of_getElem? distinct.first
    have fewer : (hidesets.filter fun s => ¬ Own M s).length < hidesets.length :=
      List.length_filter_lt_length_iff_exists.mpr ⟨[], among, by simp⟩
    omega

theorem eq_of_toFinset {s t : List Nat} (sorted : s.Pairwise (· < ·)) (sorted' : t.Pairwise (· < ·))
    (same : s.toFinset = t.toFinset) : s = t := by
  have nodup : s.Nodup := sorted.imp fun lt same => by omega
  have nodup' : t.Nodup := sorted'.imp fun lt same => by omega
  refine (List.perm_of_nodup_nodup_toFinset_eq nodup nodup' same).eq_of_pairwise
    (fun a b _ _ lt lt' => ?_) sorted sorted'
  omega

theorem WellFormed.own_le (wellFormed : WellFormed M hidesets) :
    (hidesets.filter fun s => Own M s).length ≤ 2 ^ M.card := by
  have distinct : ((hidesets.filter fun s => Own M s).map List.toFinset).Nodup := by
    refine (List.nodup_map_iff_inj_on (wellFormed.nodup.filter _)).mpr fun s mem t mem' same => ?_
    exact eq_of_toFinset (wellFormed.sorted s (List.mem_of_mem_filter mem))
      (wellFormed.sorted t (List.mem_of_mem_filter mem')) same
  rw [← Finset.card_powerset, ← List.length_map List.toFinset,
    ← List.toFinset_card_of_nodup distinct]
  refine Finset.card_le_card fun s mem => ?_
  obtain ⟨t, there, rfl⟩ := List.mem_map.mp (List.mem_toFinset.mp mem)
  have own : Own M t := of_decide_eq_true (List.mem_filter.mp there).2
  exact Finset.mem_powerset.mpr fun x inside => own x (List.mem_toFinset.mp inside)

theorem WellFormed.length_le (wellFormed : WellFormed M hidesets) : hidesets.length ≤ 65536 := by
  have split := List.length_eq_length_filter_add (l := hidesets) fun s => decide (Own M s)
  have others : (hidesets.filter fun s => !decide (Own M s)) = hidesets.filter fun s => ¬ Own M s :=
    List.filter_congr fun s _ => (decide_not ..).symm
  have own := wellFormed.own_le
  have room := wellFormed.room
  rw [others] at split
  omega

theorem WellFormed.few (wellFormed : WellFormed M hidesets) : M.card ≤ 30 := by
  by_contra many
  have room := wellFormed.room
  have large : 2 ^ 30 ≤ 2 ^ M.card := Nat.pow_le_pow_right (by decide) (by omega)
  omega

theorem WellFormed.set_mem (valid : hs < hidesets.length) : hidesets.set hs ∈ hidesets := by
  unfold Hidesets.set
  rw [List.getD_eq_getElem _ _ valid]
  exact List.getElem_mem valid

theorem WellFormed.pos (wellFormed : WellFormed M hidesets) : 0 < hidesets.length :=
  (List.getElem?_eq_some_iff.mp wellFormed.first).1

/-- A number that is in use, for a set of macros among `M`. -/
structure Within (M : Finset Nat) (hidesets : Hidesets) (hs : Nat) : Prop where
  valid : hs < hidesets.length
  macros : ∀ x ∈ hidesets.set hs, x ∈ M

theorem Within.mono (within : Within M hidesets hs) (extends_ : hidesets <+: later) :
    Within M later hs where
  valid := within.valid.trans_le extends_.length_le
  macros := (set_extended extends_ within.valid).symm ▸ within.macros

theorem WellFormed.newhideset (wellFormed : WellFormed M hidesets) (within : Within M hidesets hs)
    (macro_ : np ∈ M) :
    WellFormed M (newhideset hidesets hs np).1 := by
  have own : Own M (inserths (hidesets.set hs) np) := by
    intro x there
    rcases mem_inserths.mp there with rfl | old
    · exact macro_
    · exact within.macros x old
  unfold Cpp.newhideset
  dsimp only
  split
  · exact wellFormed
  rename_i absent
  split
  · exact wellFormed
  · refine ⟨⟨?_, fun s mem => ?_, ?_⟩, ?_⟩
    · rw [List.getElem?_append_left wellFormed.pos]
      exact wellFormed.first
    · rcases List.mem_append.mp mem with old | new
      · exact wellFormed.sorted s old
      · rw [List.mem_singleton.mp new]
        exact inserths_sorted (wellFormed.sorted _ (WellFormed.set_mem within.valid))
    · refine List.nodup_append.mpr
        ⟨wellFormed.nodup, List.nodup_singleton _, fun s old t new same => ?_⟩
      have different := List.findIdx?_eq_none_iff.mp absent s old
      rw [List.mem_singleton.mp new] at same
      exact absurd same (of_decide_eq_false different)
    · have kept : ([inserths (hidesets.set hs) np].filter fun s => ¬ Own M s) = [] := by
        rw [List.filter_cons_of_neg (by simpa using own), List.filter_nil]
      rw [List.filter_append, kept, List.append_nil]
      exact wellFormed.room

/-- Hidesets that were there before stay what they were. -/
structure Grows (M : Finset Nat) (hidesets later : Hidesets) (hs : Nat) (old : List Nat) :
    Prop where
  wellFormed : WellFormed M later
  extends_ : hidesets <+: later
  within : Within M later hs
  super : ∀ x ∈ old, x ∈ later.set hs

end LC3Tools.Cpp
