import Mathlib.Computability.Language

/-! Patterns of a generated scanner and their longest match. A character pattern is
any decidable class, so that a negated class stays one node; the meaning is a language
of Mathlib. Matching goes by derivatives, which never look at what was consumed. -/
namespace LC3Tools.Flex
open Computability

universe u

inductive Regex (α : Type u) where
  | empty
  | epsilon
  | char (p : α → Bool)
  | alt (r s : Regex α)
  | seq (r s : Regex α)
  | star (r : Regex α)

namespace Regex
variable {α : Type u}

def language : Regex α → Language α
  | empty => 0
  | epsilon => 1
  | char p => {w | ∃ a, p a ∧ w = [a]}
  | alt r s => r.language + s.language
  | seq r s => r.language * s.language
  | star r => KStar.kstar r.language

def Matches (r : Regex α) (w : List α) : Prop := w ∈ r.language

section matching
variable {r s : Regex α} {w : List α}

@[simp] theorem matches_empty : ¬ (empty : Regex α).Matches w := Language.notMem_zero w

@[simp] theorem matches_epsilon : (epsilon : Regex α).Matches w ↔ w = [] := Language.mem_one w

@[simp] theorem matches_char {p : α → Bool} : (char p).Matches w ↔ ∃ a, p a ∧ w = [a] := Iff.rfl

@[simp] theorem matches_alt : (alt r s).Matches w ↔ r.Matches w ∨ s.Matches w :=
  Language.mem_add _ _ w

theorem matches_seq : (seq r s).Matches w ↔ ∃ u v, r.Matches u ∧ s.Matches v ∧ u ++ v = w := by
  simp only [Matches, language, Language.mem_mul]
  constructor
  · rintro ⟨u, hu, v, hv, same⟩
    exact ⟨u, v, hu, hv, same⟩
  · rintro ⟨u, v, hu, hv, same⟩
    exact ⟨u, hu, v, hv, same⟩

theorem matches_star_nil : (star r).Matches [] := Language.nil_mem_kstar _

theorem matches_star_cons {a : α} :
    (star r).Matches (a :: w) ↔ ∃ u v, r.Matches (a :: u) ∧ (star r).Matches v ∧ u ++ v = w := by
  constructor
  · intro h
    obtain ⟨pieces, same, each⟩ := Language.mem_kstar_iff_exists_nonempty.mp h
    cases pieces with
    | nil => cases same
    | cons piece pieces =>
      obtain ⟨matched, nonempty⟩ := each piece (List.mem_cons_self ..)
      cases piece with
      | nil => exact absurd rfl nonempty
      | cons b u =>
        obtain ⟨rfl, rest⟩ := List.cons.inj same
        refine ⟨u, pieces.flatten, matched, ?_, rest.symm⟩
        refine Language.mem_kstar.mpr ⟨pieces, rfl, ?_⟩
        intro y inside
        exact (each y (List.mem_cons_of_mem _ inside)).1
  · rintro ⟨u, v, matched, rest, rfl⟩
    obtain ⟨pieces, rfl, each⟩ := Language.mem_kstar.mp rest
    refine Language.mem_kstar.mpr ⟨(a :: u) :: pieces, rfl, ?_⟩
    intro y inside
    rcases List.mem_cons.mp inside with rfl | inside
    · exact matched
    · exact each y inside

end matching

def nullable : Regex α → Bool
  | empty => false
  | epsilon => true
  | char _ => false
  | alt r s => r.nullable || s.nullable
  | seq r s => r.nullable && s.nullable
  | star _ => true

theorem nullable_iff (r : Regex α) : r.nullable ↔ r.Matches [] := by
  induction r with
  | empty => simp [nullable]
  | epsilon => simp [nullable]
  | char p => simp [nullable]
  | alt r s ihr ihs => simp [nullable, ihr, ihs]
  | seq r s ihr ihs => simp [nullable, ihr, ihs, matches_seq]
  | star r _ => simp [nullable, matches_star_nil]

/-- Alternation and sequence that drop the patterns no word can reach, so that a
failed derivative is literally `empty`. -/
def either : Regex α → Regex α → Regex α
  | empty, s => s
  | r, empty => r
  | r, s => alt r s

def followed : Regex α → Regex α → Regex α
  | empty, _ => empty
  | epsilon, s => s
  | r, s => seq r s

theorem matches_either {r s : Regex α} {w : List α} :
    (either r s).Matches w ↔ r.Matches w ∨ s.Matches w := by
  cases r <;> cases s <;> simp [either]

theorem matches_followed {r s : Regex α} {w : List α} :
    (followed r s).Matches w ↔ (seq r s).Matches w := by
  cases r <;> simp [followed, matches_seq]

def deriv : Regex α → α → Regex α
  | empty, _ => empty
  | epsilon, _ => empty
  | char p, a => if p a then epsilon else empty
  | alt r s, a => either (r.deriv a) (s.deriv a)
  | seq r s, a =>
    if r.nullable then either (followed (r.deriv a) s) (s.deriv a) else followed (r.deriv a) s
  | star r, a => followed (r.deriv a) (star r)

theorem matches_deriv (r : Regex α) (a : α) (w : List α) :
    (r.deriv a).Matches w ↔ r.Matches (a :: w) := by
  induction r generalizing w with
  | empty => simp [deriv]
  | epsilon => simp [deriv]
  | char p =>
    cases accepts : p a <;> simp [deriv, accepts]
  | alt r s ihr ihs => simp [deriv, matches_either, ihr, ihs]
  | seq r s ihr ihs =>
    -- either the first part consumes the character, or it is empty and the second does
    have split : (seq r s).Matches (a :: w) ↔
        (seq (r.deriv a) s).Matches w ∨ r.Matches [] ∧ s.Matches (a :: w) := by
      simp only [matches_seq, ihr]
      constructor
      · rintro ⟨u, v, hu, hv, same⟩
        cases u with
        | nil => exact .inr ⟨hu, by simpa using same ▸ hv⟩
        | cons b u =>
          obtain ⟨rfl, rfl⟩ := List.cons.inj same
          exact .inl ⟨u, v, hu, hv, rfl⟩
      · rintro (⟨u, v, hu, hv, rfl⟩ | ⟨hr, hs⟩)
        · exact ⟨a :: u, v, hu, hv, rfl⟩
        · exact ⟨[], a :: w, hr, hs, rfl⟩
    rw [split, ← nullable_iff]
    cases empty_first : r.nullable with
    | true => simp [deriv, empty_first, matches_either, matches_followed, ihs]
    | false => simp [deriv, empty_first, matches_followed]
  | star r ih =>
    simp only [deriv, matches_followed, matches_seq, matches_star_cons, ih]

/-- The length of the longest prefix a pattern matches. -/
def longest : Regex α → List α → Option Nat
  | empty, _ => none
  | r, [] => if r.nullable then some 0 else none
  | r, a :: as =>
    match longest (r.deriv a) as with
    | some n => some (n + 1)
    | none => if r.nullable then some 0 else none

theorem longest_nil (r : Regex α) : r.longest [] = if r.nullable then some 0 else none := by
  cases r <;> rfl

theorem longest_cons (r : Regex α) (a : α) (as : List α) :
    r.longest (a :: as) =
      match (r.deriv a).longest as with
      | some n => some (n + 1)
      | none => if r.nullable then some 0 else none := by
  cases r with
  | empty =>
    have missed : (empty : Regex α).longest as = none := by cases as <;> rfl
    simp [longest, deriv, missed, nullable]
  | _ => rfl

theorem longest_none {r : Regex α} {input : List α} :
    r.longest input = none ↔ ∀ m, ¬ r.Matches (input.take m) := by
  induction input generalizing r with
  | nil => simp [longest_nil, nullable_iff]
  | cons a as ih =>
    have step : r.longest (a :: as) = none ↔ (r.deriv a).longest as = none ∧ ¬ r.nullable := by
      rw [longest_cons]
      cases (r.deriv a).longest as <;> simp
    rw [step, ih, nullable_iff]
    constructor
    · rintro ⟨later, now⟩ m
      cases m with
      | zero => exact now
      | succ m => exact fun h => later m ((matches_deriv r a _).mpr h)
    · intro missed
      exact ⟨fun m h => missed (m + 1) ((matches_deriv r a _).mp h), missed 0⟩

/-- `n` is the largest length of a prefix of the input that the pattern matches. -/
structure Longest (r : Regex α) (input : List α) (n : Nat) : Prop where
  bounded : n ≤ input.length
  accepts : r.Matches (input.take n)
  maximal : ∀ m, m ≤ input.length → r.Matches (input.take m) → m ≤ n

theorem longest_some {r : Regex α} {input : List α} {n : Nat}
    (found : r.longest input = some n) : Longest r input n := by
  induction input generalizing r n with
  | nil =>
    rw [longest_nil] at found
    split at found
    · rename_i empty
      cases found
      exact ⟨Nat.le_refl 0, (nullable_iff r).mp empty, fun m short _ => short⟩
    · cases found
  | cons a as ih =>
    rw [longest_cons] at found
    split at found
    · rename_i k later
      cases found
      obtain ⟨bounded, accepts, maximal⟩ := ih later
      refine ⟨Nat.succ_le_succ bounded, (matches_deriv r a _).mp accepts, ?_⟩
      intro m short matched
      cases m with
      | zero => exact Nat.zero_le _
      | succ m =>
        exact Nat.succ_le_succ
          (maximal m (Nat.le_of_succ_le_succ short) ((matches_deriv r a _).mpr matched))
    · rename_i later
      split at found
      · rename_i empty
        cases found
        refine ⟨Nat.zero_le _, (nullable_iff r).mp empty, ?_⟩
        intro m _ matched
        cases m with
        | zero => exact Nat.le_refl 0
        | succ m => exact absurd ((matches_deriv r a _).mpr matched) (longest_none.mp later m)
      · cases found

theorem longest_iff {r : Regex α} {input : List α} {n : Nat} :
    r.longest input = some n ↔ Longest r input n := by
  constructor
  · exact longest_some
  · intro most
    cases found : r.longest input with
    | none => exact absurd most.accepts (longest_none.mp found n)
    | some m =>
      have other := longest_some found
      have same : m = n := Nat.le_antisymm (most.maximal m other.bounded other.accepts)
        (other.maximal n most.bounded most.accepts)
      rw [same]

end Regex

end LC3Tools.Flex
