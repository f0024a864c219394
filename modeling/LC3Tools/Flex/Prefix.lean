import LC3Tools.Flex.Scanner

/-! What a match depends on. A pattern does not tell apart two characters on which all
of its classes agree, never matches a character that none of them accepts, and does not
see what stands behind the longest text it may match. -/
namespace LC3Tools.Flex

universe u v w

variable {α : Type u} {τ : Type w}

namespace Regex

/-- Every class of the pattern gives the same answer for both characters. -/
def agree : Regex α → α → α → Bool
  | empty, _, _ => true
  | epsilon, _, _ => true
  | char p, a, b => p a == p b
  | alt r s, a, b => r.agree a b && s.agree a b
  | seq r s, a, b => r.agree a b && s.agree a b
  | star r, a, b => r.agree a b

section agree
variable {r s : Regex α} {a b c : α}

theorem agree_refl (r : Regex α) (a : α) : r.agree a a := by
  induction r with
  | empty | epsilon => rfl
  | char p => exact beq_self_eq_true _
  | alt r s ihr ihs => exact Bool.and_eq_true_iff.mpr ⟨ihr, ihs⟩
  | seq r s ihr ihs => exact Bool.and_eq_true_iff.mpr ⟨ihr, ihs⟩
  | star r ih => exact ih

theorem either_agree (first : r.agree a b) (second : s.agree a b) : (either r s).agree a b := by
  cases r <;> cases s <;> simp_all [either, agree]

theorem followed_agree (first : r.agree a b) (second : s.agree a b) :
    (followed r s).agree a b := by
  cases r <;> simp_all [followed, agree]

theorem deriv_agree (same : r.agree a b) : (r.deriv c).agree a b := by
  induction r with
  | empty | epsilon => rfl
  | char p =>
    simp only [deriv]
    split <;> rfl
  | alt r s ihr ihs =>
    obtain ⟨first, second⟩ := Bool.and_eq_true_iff.mp same
    exact either_agree (ihr first) (ihs second)
  | seq r s ihr ihs =>
    obtain ⟨first, second⟩ := Bool.and_eq_true_iff.mp same
    simp only [deriv]
    split
    · exact either_agree (followed_agree (ihr first) second) (ihs second)
    · exact followed_agree (ihr first) second
  | star r ih => exact followed_agree (ih same) same

theorem deriv_eq_of_agree (same : r.agree a b) : r.deriv a = r.deriv b := by
  induction r with
  | empty | epsilon => rfl
  | char p =>
    have answer : p a = p b := eq_of_beq same
    simp only [deriv, answer]
  | alt r s ihr ihs =>
    obtain ⟨first, second⟩ := Bool.and_eq_true_iff.mp same
    simp only [deriv, ihr first, ihs second]
  | seq r s ihr ihs =>
    obtain ⟨first, second⟩ := Bool.and_eq_true_iff.mp same
    simp only [deriv, ihr first, ihs second]
  | star r ih => simp only [deriv, ih same]

theorem longest_agree {as bs : List α} (same : List.Forall₂ (fun a b => r.agree a b) as bs) :
    r.longest as = r.longest bs := by
  induction as generalizing r bs with
  | nil =>
    cases same
    rfl
  | cons a as ih =>
    cases same with
    | cons first rest =>
      have later := ih (r := r.deriv a) (rest.imp fun x y same => deriv_agree same)
      rw [longest_cons, longest_cons, ← deriv_eq_of_agree first, later]

end agree

/-- No class of the pattern accepts the character. -/
def avoids (c : α) : Regex α → Bool
  | empty => true
  | epsilon => true
  | char p => !p c
  | alt r s => r.avoids c && s.avoids c
  | seq r s => r.avoids c && s.avoids c
  | star r => r.avoids c

theorem notMem_of_avoids {c : α} {r : Regex α} {w : List α} (avoided : r.avoids c)
    (matched : r.Matches w) : c ∉ w := by
  induction r generalizing w with
  | empty => exact absurd matched matches_empty
  | epsilon => simp_all
  | char p =>
    obtain ⟨a, accepted, rfl⟩ := matched
    intro inside
    cases List.mem_singleton.mp inside
    simp [avoids, accepted] at avoided
  | alt r s ihr ihs =>
    obtain ⟨first, second⟩ := Bool.and_eq_true_iff.mp avoided
    rcases matches_alt.mp matched with matched | matched
    · exact ihr first matched
    · exact ihs second matched
  | seq r s ihr ihs =>
    obtain ⟨first, second⟩ := Bool.and_eq_true_iff.mp avoided
    obtain ⟨u, v, hu, hv, rfl⟩ := matches_seq.mp matched
    intro inside
    rcases List.mem_append.mp inside with inside | inside
    · exact ihr first hu inside
    · exact ihs second hv inside
  | star r ih =>
    obtain ⟨pieces, rfl, each⟩ := Language.mem_kstar.mp matched
    intro inside
    obtain ⟨piece, here, within⟩ := List.mem_flatten.mp inside
    exact ih avoided (each piece here) within

theorem longest_append {r : Regex α} {input post : List α}
    (short : ∀ m, m ≤ (input ++ post).length → r.Matches ((input ++ post).take m) →
      m ≤ input.length) : r.longest (input ++ post) = r.longest input := by
  have prefixes (m : Nat) (within : m ≤ input.length) :
      (input ++ post).take m = input.take m := List.take_append_of_le_length within
  cases found : r.longest (input ++ post) with
  | none =>
    have missed := longest_none.mp found
    refine (longest_none.mpr fun m matched => ?_).symm
    rcases Nat.le_total m input.length with within | beyond
    · exact missed m (prefixes m within ▸ matched)
    · rw [List.take_of_length_le beyond] at matched
      have whole := prefixes input.length (Nat.le_refl _)
      rw [List.take_length] at whole
      refine missed input.length ?_
      rw [whole]
      exact matched
  | some n =>
    obtain ⟨bounded, accepts, maximal⟩ := longest_some found
    have within := short n bounded accepts
    refine (longest_iff.mpr ⟨within, prefixes n within ▸ accepts, ?_⟩).symm
    intro m inside matched
    refine maximal m ?_ (prefixes m inside ▸ matched)
    rw [List.length_append]
    omega

end Regex

namespace Regex

def derivs (r : Regex α) (u : List α) : Regex α := u.foldl deriv r

theorem matches_derivs (r : Regex α) (u w : List α) :
    (r.derivs u).Matches w ↔ r.Matches (u ++ w) := by
  induction u generalizing r with
  | nil => rfl
  | cons a u ih => rw [derivs, List.foldl_cons, ← derivs, ih, matches_deriv, List.cons_append]

theorem nullable_derivs (r : Regex α) (w : List α) : (r.derivs w).nullable ↔ r.Matches w := by
  rw [nullable_iff, matches_derivs, List.append_nil]

def isEmpty : Regex α → Bool
  | empty => true
  | _ => false

theorem not_matches_of_isEmpty {r : Regex α} (none : r.isEmpty) (w : List α) : ¬ r.Matches w := by
  cases r with
  | empty => exact matches_empty
  | _ => cases none

theorem not_matches_cons {r : Regex α} {a : α} (none : (r.deriv a).isEmpty) (w : List α) :
    ¬ r.Matches (a :: w) :=
  fun matched => not_matches_of_isEmpty none w ((matches_deriv r a w).mpr matched)

theorem matches_star_char {p : α → Bool} {w : List α} :
    (star (char p)).Matches w ↔ ∀ a ∈ w, p a := by
  induction w with
  | nil => simp [matches_star_nil]
  | cons a w ih =>
    rw [matches_star_cons, List.forall_mem_cons]
    constructor
    · rintro ⟨u, v, ⟨b, accepted, same⟩, rest, rfl⟩
      obtain ⟨rfl, rfl⟩ := List.cons.inj same
      exact ⟨accepted, ih.mp rest⟩
    · rintro ⟨accepted, rest⟩
      exact ⟨[], w, ⟨a, accepted, rfl⟩, ih.mpr rest, rfl⟩

end Regex

theorem best_agree {rules : List (Rule α τ)} {as bs : List α}
    (same : ∀ rule ∈ rules, List.Forall₂ (fun a b => rule.pattern.agree a b) as bs) :
    best rules as = best rules bs := by
  induction rules with
  | nil => rfl
  | cons rule rules ih =>
    have rest := ih fun r inside => same r (List.mem_cons_of_mem _ inside)
    simp only [best, Regex.longest_agree (same rule (List.mem_cons_self ..)), rest]

theorem best_append {rules : List (Rule α τ)} {input post : List α}
    (within : Within rules (input ++ post) input.length) :
    best rules (input ++ post) = best rules input := by
  induction rules with
  | nil => rfl
  | cons rule rules ih =>
    have rest := ih fun r inside => within r (List.mem_cons_of_mem _ inside)
    have here := Regex.longest_append (within rule (List.mem_cons_self ..))
    simp only [best, here, rest]

theorem best_settled {rules : List (Rule α τ)} {input : List α} (post : List α)
    (settled : rules.all fun rule => (rule.pattern.derivs input).isEmpty) :
    best rules (input ++ post) = best rules input := by
  apply best_append
  intro rule inside m bounded matched
  by_contra beyond
  have split : (input ++ post).take m = input ++ post.take (m - input.length) := by
    rw [List.take_append, List.take_of_length_le (by omega)]
  rw [split, ← Regex.matches_derivs] at matched
  exact Regex.not_matches_of_isEmpty (List.all_eq_true.mp settled rule inside) _ matched

/-! A text that is given with its lexemes. -/

def texts (ts : List (τ × List α)) : List α := ts.flatMap Prod.snd

/-- The lexemes in front of more text. -/
def placed : List (τ × List α) → List α → List (Lexeme α τ)
  | [], _ => []
  | (t, w) :: ts, post => ⟨t, w, texts ts ++ post⟩ :: placed ts post

namespace Scanner
variable {σ : Type v} (scanner : Scanner α σ τ)

/-- Each text is the longest match as soon as some of the characters behind it are known. -/
def settled [DecidableEq τ] (ahead : Nat) (behind : List α) : σ → List (τ × List α) → Option σ
  | cond, [] => some cond
  | cond, (t, w) :: ts =>
    let front := w ++ (texts ts ++ behind).take ahead
    if w ≠ [] ∧ best (scanner.rules cond) front = some (t, w.length) ∧
        (scanner.rules cond).all fun rule => (rule.pattern.derivs front).isEmpty then
      (scanner.next cond t).bind fun cond' => settled ahead behind cond' ts
    else none

variable {scanner}

theorem scans_of_settled [DecidableEq τ] {ahead : Nat} {behind : List α} {cond last : σ}
    {ts : List (τ × List α)}
    (found : scanner.settled ahead behind cond ts = some last) (post : List α) :
    scanner.Scans (behind ++ post) cond (texts ts) (placed ts (behind ++ post)) last := by
  induction ts generalizing cond with
  | nil =>
    cases found
    exact Scans.done ..
  | cons first ts ih =>
    obtain ⟨t, w⟩ := first
    simp only [settled] at found
    split at found
    · rename_i sure
      obtain ⟨cond', next, rest⟩ := Option.bind_eq_some_iff.mp found
      obtain ⟨nonempty, won, dead⟩ := sure
      have parts : w ++ (texts ts ++ (behind ++ post)) =
          w ++ (texts ts ++ behind).take ahead ++ ((texts ts ++ behind).drop ahead ++ post) := by
        rw [List.append_assoc, ← List.append_assoc (List.take ..), List.take_append_drop]
        simp only [List.append_assoc]
      have won' : best (scanner.rules cond) (w ++ (texts ts ++ (behind ++ post))) = some
        (t, w.length) := by
        rw [parts, best_settled _ dead]
        exact won
      exact (Scans.one nonempty won' next).append (ih rest)
    · cases found

end Scanner

end LC3Tools.Flex
