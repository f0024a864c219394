import LC3Tools.Assembler.Lines

/-! How the scanner reads a name where a statement expects its operand. A name that is also
spelled like a register or a hexadecimal number matches the rules for those with the same
length, and they come first. -/
namespace LC3Tools.Assembler
open Flex Regex Pattern

/-- A C identifier. -/
def isIdentifier : List Byte → Bool
  | [] => false
  | c :: cs => isalphabar c && cs.all isalnumbar

def isRegisterName : List Byte → Bool
  | [c, d] => tolower c = byte 'r' && (byte '0' ≤ d && d ≤ byte '7')
  | _ => false

theorem matches_plus_space {w : List Byte} :
    (plus space).Matches w ↔ w ≠ [] ∧ ∀ b ∈ w, isblank b := by
  unfold plus space
  rw [matches_seq]
  constructor
  · rintro ⟨u, v, ⟨a, accepted, rfl⟩, rest, rfl⟩
    refine ⟨by simp, ?_⟩
    exact List.forall_mem_cons.mpr ⟨accepted, matches_star_char.mp rest⟩
  · rintro ⟨nonempty, blank⟩
    cases w with
    | nil => exact absurd rfl nonempty
    | cons a w =>
      obtain ⟨first, rest⟩ := List.forall_mem_cons.mp blank
      exact ⟨[a], w, ⟨a, first, rfl⟩, matches_star_char.mpr rest, rfl⟩

theorem matches_letter {s : String} {r : Byte} (one : (bytes s).map tolower = [r]) {w : List Byte} :
    (lit s).Matches w ↔ ∃ c, w = [c] ∧ tolower c = r := by
  rw [matches_lit, one]
  constructor
  · intro same
    cases w with
    | nil => cases same
    | cons c w =>
      obtain ⟨first, rest⟩ := List.cons.inj same
      exact ⟨c, by rw [List.map_eq_nil_iff.mp rest], first⟩
  · rintro ⟨c, rfl, rfl⟩
    rfl

theorem matches_register {w : List Byte} : register.Matches w ↔ isRegisterName w := by
  unfold register
  rw [matches_seq]
  constructor
  · rintro ⟨u, v, hu, ⟨d, digit, rfl⟩, rfl⟩
    obtain ⟨c, rfl, letter⟩ := (matches_letter (r := byte 'r') (by decide)).mp hu
    simp only [List.singleton_append, isRegisterName, Bool.and_eq_true]
    exact ⟨decide_eq_true letter, Bool.and_eq_true_iff.mp digit⟩
  · intro matched
    match w, matched with
    | [c, d], matched =>
      simp only [isRegisterName, Bool.and_eq_true] at matched
      obtain ⟨letter, digit⟩ := matched
      exact ⟨[c], [d], (matches_letter (by decide)).mpr ⟨c, rfl, of_decide_eq_true letter⟩,
        ⟨d, Bool.and_eq_true_iff.mpr digit, rfl⟩, rfl⟩

theorem matches_label {w : List Byte} : Pattern.label.Matches w ↔ isIdentifier w := by
  unfold Pattern.label
  rw [matches_seq]
  constructor
  · rintro ⟨u, v, ⟨c, first, rfl⟩, rest, rfl⟩
    simp only [List.singleton_append, isIdentifier, first,
      List.all_eq_true.mpr (matches_star_char.mp rest), Bool.and_true]
  · intro matched
    cases w with
    | nil => cases matched
    | cons c cs =>
      obtain ⟨first, rest⟩ := Bool.and_eq_true_iff.mp matched
      exact ⟨[c], cs, ⟨c, first, rfl⟩, matches_star_char.mpr (List.all_eq_true.mp rest), rfl⟩

theorem endline_lineFeed : endline.Matches [lineFeed] :=
  (nullable_derivs endline [lineFeed]).mp (by decide +kernel)

theorem isalnumbar_of_isalphabar {x : Byte} (letter : isalphabar x) : isalnumbar x := by
  simp [isalnumbar, letter]

section name
variable {name : List Byte}

theorem isIdentifier_cons (ident : isIdentifier name) :
    ∃ c cs, name = c :: cs ∧ isalphabar c ∧ ∀ x ∈ name, isalnumbar x := by
  cases name with
  | nil => cases ident
  | cons c cs =>
    obtain ⟨first, rest⟩ := Bool.and_eq_true_iff.mp ident
    exact ⟨c, cs, rfl, first,
      List.forall_mem_cons.mpr ⟨isalnumbar_of_isalphabar first, List.all_eq_true.mp rest⟩⟩

end name

end LC3Tools.Assembler
