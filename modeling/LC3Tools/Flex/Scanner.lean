import LC3Tools.Flex.Regex

/-! The scanner a rule file generates: in each start condition the rule with the
longest match wins, the earlier one on a tie; where no rule matches, one character
is passed over. Actions are not run here: the scanner yields the lexemes in order. -/
namespace LC3Tools.Flex

universe u v w

variable {α : Type u} {σ : Type v} {τ : Type w}

structure Rule (α : Type u) (τ : Type w) where
  token : τ
  pattern : Regex α

/-- The text a rule matched, and what follows it in the buffer. -/
structure Lexeme (α : Type u) (τ : Type w) where
  token : τ
  text : List α
  rest : List α
  deriving DecidableEq

structure Scanner (α : Type u) (σ : Type v) (τ : Type w) where
  rules : σ → List (Rule α τ)
  /-- The start condition an action leaves behind, or none where it returns. -/
  next : σ → τ → Option σ

def best : List (Rule α τ) → List α → Option (τ × Nat)
  | [], _ => none
  | rule :: rules, input =>
    match rule.pattern.longest input, best rules input with
    | some n, some (t, m) => if m ≤ n then some (rule.token, n) else some (t, m)
    | some n, none => some (rule.token, n)
    | none, other => other

/-- No prefix longer than `n` is matched by any of the rules. -/
def Within (rules : List (Rule α τ)) (input : List α) (n : Nat) : Prop :=
  ∀ rule ∈ rules, ∀ m, m ≤ input.length → rule.pattern.Matches (input.take m) → m ≤ n

theorem best_within {rules : List (Rule α τ)} {input : List α} {n m : Nat} {t : τ}
    (within : Within rules input n) (found : best rules input = some (t, m)) : m ≤ n := by
  induction rules generalizing t m with
  | nil => cases found
  | cons rule rules ih =>
    have rest : Within rules input n := fun r inside => within r (List.mem_cons_of_mem _ inside)
    have here (k : Nat) (longest : rule.pattern.longest input = some k) : k ≤ n := by
      have most := Regex.longest_some longest
      exact within rule (List.mem_cons_self ..) k most.bounded most.accepts
    simp only [best] at found
    split at found
    · rename_i k u j longest other
      split at found <;> cases found
      · exact here _ longest
      · exact ih rest other
    · rename_i k longest other
      cases found
      exact here _ longest
    · exact ih rest found

theorem best_first (before after : List (Rule α τ)) (rule : Rule α τ) {input : List α} {n : Nat}
    (bounded : n ≤ input.length) (within : Within (before ++ rule :: after) input n)
    (accepts : rule.pattern.Matches (input.take n))
    (earlier : ∀ other ∈ before, ¬ other.pattern.Matches (input.take n)) :
    best (before ++ rule :: after) input = some (rule.token, n) := by
  induction before with
  | nil =>
    have most : rule.pattern.longest input = some n :=
      Regex.longest_iff.mpr ⟨bounded, accepts, within rule (List.mem_cons_self ..)⟩
    simp only [List.nil_append, best, most]
    cases other : best after input with
    | none => rfl
    | some found =>
      have short : found.2 ≤ n :=
        best_within (fun r inside => within r (List.mem_cons_of_mem _ inside)) other
      simp only [if_pos short]
  | cons first before ih =>
    have rest := ih (fun r inside => within r (List.mem_cons_of_mem _ inside))
      (fun r inside => earlier r (List.mem_cons_of_mem _ inside))
    simp only [List.cons_append, best, rest]
    cases longest : first.pattern.longest input with
    | none => rfl
    | some k =>
      have most := Regex.longest_some longest
      have short : k ≤ n := within first (List.mem_cons_self ..) k most.bounded most.accepts
      have other : k ≠ n := by
        rintro rfl
        exact earlier first (List.mem_cons_self ..) most.accepts
      have less : ¬ n ≤ k := by omega
      simp only [if_neg less]

theorem best_later {before after : List (Rule α τ)} {input : List α} {t : τ} {n : Nat}
    (other : ∀ rule ∈ before, rule.token ≠ t) (won : best (before ++ after) input = some (t, n)) :
    best after input = some (t, n) ∧
      ∀ rule ∈ before, ¬ rule.pattern.Matches (input.take n) := by
  induction before with
  | nil => exact ⟨won, by simp⟩
  | cons first before ih =>
    obtain ⟨here, there⟩ := List.forall_mem_cons.mp other
    simp only [List.cons_append, best] at won
    split at won
    · rename_i k u m longest found
      split at won
      · cases won
        exact absurd rfl here
      · rename_i longer
        cases won
        obtain ⟨later, missed⟩ := ih there found
        refine ⟨later, List.forall_mem_cons.mpr ⟨?_, missed⟩⟩
        intro matched
        have most := Regex.longest_some longest
        have bounded : n ≤ input.length := best_within (fun _ _ _ bounded _ => bounded) found
        exact longer (most.maximal n bounded matched)
    · cases won
      exact absurd rfl here
    · rename_i missing
      obtain ⟨later, missed⟩ := ih there won
      exact ⟨later, List.forall_mem_cons.mpr ⟨Regex.longest_none.mp missing n, missed⟩⟩

theorem best_wins {rules : List (Rule α τ)} {input : List α} {t : τ} {n : Nat}
    (won : best rules input = some (t, n)) :
    ∃ rule ∈ rules, rule.token = t ∧ rule.pattern.Matches (input.take n) := by
  induction rules with
  | nil => cases won
  | cons first rules ih =>
    have here {k : Nat} (longest : first.pattern.longest input = some k) :
        ∃ rule ∈ first :: rules, rule.token = first.token ∧
          rule.pattern.Matches (input.take k) :=
      ⟨first, List.mem_cons_self .., rfl, (Regex.longest_some longest).accepts⟩
    have there (later : best rules input = some (t, n)) :
        ∃ rule ∈ first :: rules, rule.token = t ∧ rule.pattern.Matches (input.take n) := by
      obtain ⟨rule, inside, rest⟩ := ih later
      exact ⟨rule, List.mem_cons_of_mem _ inside, rest⟩
    simp only [best] at won
    split at won
    · rename_i longest later
      split at won <;> cases won
      · exact here longest
      · exact there later
    · rename_i longest later
      cases won
      exact here longest
    · exact there won

theorem within_of_best {rules : List (Rule α τ)} {input : List α} {n : Nat} {t : τ}
    (won : best rules input = some (t, n)) : Within rules input n := by
  have none_within (rules : List (Rule α τ)) (none : best rules input = none) (k : Nat) :
    Within rules input k := by
    induction rules with
    | nil => exact fun rule mem => by cases mem
    | cons first rules ih =>
      simp only [best] at none
      split at none
      · split at none <;> cases none
      · cases none
      · rename_i missing
        refine List.forall_mem_cons.mpr ⟨fun m _ matched => ?_, ih none⟩
        exact absurd matched (Regex.longest_none.mp missing m)
  induction rules generalizing t n with
  | nil => cases won
  | cons first rules ih =>
    have here {k l : Nat} (longest : first.pattern.longest input = some k) (le : k ≤ l) :
        ∀ m, m ≤ input.length → first.pattern.Matches (input.take m) → m ≤ l :=
      fun m bounded matched => ((Regex.longest_some longest).maximal m bounded matched).trans le
    simp only [best] at won
    split at won
    · rename_i k u j longest later
      split at won <;> cases won
      · rename_i le
        refine List.forall_mem_cons.mpr
          ⟨here longest (Nat.le_refl _), fun rule mem m bounded matched => ?_⟩
        exact (ih later rule mem m bounded matched).trans le
      · rename_i less
        exact List.forall_mem_cons.mpr ⟨here longest (by omega), ih later⟩
    · rename_i k longest later
      cases won
      exact List.forall_mem_cons.mpr ⟨here longest (Nat.le_refl _), none_within rules later _⟩
    · rename_i missing
      refine List.forall_mem_cons.mpr ⟨fun m _ matched => ?_, ih won⟩
      exact absurd matched (Regex.longest_none.mp missing m)

namespace Scanner
variable (scanner : Scanner α σ τ)

/-- The calls of the scanner, with a bound on the characters that are left. -/
def scan : Nat → σ → List α → List (Lexeme α τ)
  | 0, _, _ => []
  | _, _, [] => []
  | fuel + 1, cond, c :: cs =>
    match best (scanner.rules cond) (c :: cs) with
    | some (t, n + 1) =>
      let rest := cs.drop n
      ⟨t, (c :: cs).take (n + 1), rest⟩ ::
        match scanner.next cond t with
        | some cond' => scan fuel cond' rest
        | none => []
    | _ => scan fuel cond cs

theorem scan_nil (fuel : Nat) (cond : σ) : scanner.scan fuel cond [] = [] := by
  cases fuel <;> rfl

theorem scan_fuel {fuel fuel' : Nat} {cond : σ} {input : List α} (enough : input.length ≤ fuel)
    (enough' : input.length ≤ fuel') :
    scanner.scan fuel cond input = scanner.scan fuel' cond input := by
  induction fuel generalizing fuel' cond input with
  | zero =>
    have empty : input = [] := List.eq_nil_of_length_eq_zero (Nat.le_zero.mp enough)
    rw [empty, scan_nil, scan_nil]
  | succ fuel ih =>
    cases input with
    | nil => rw [scan_nil, scan_nil]
    | cons c cs =>
      cases fuel' with
      | zero => exact absurd enough' (by simp)
      | succ fuel' =>
        have short : cs.length ≤ fuel := Nat.le_of_succ_le_succ enough
        have short' : cs.length ≤ fuel' := Nat.le_of_succ_le_succ enough'
        have drop (cond : σ) (n : Nat) :
            scanner.scan fuel cond (cs.drop n) = scanner.scan fuel' cond (cs.drop n) :=
          ih (by simp; omega) (by simp; omega)
        simp only [scan]
        split
        · simp only [drop]
        · exact ih short short'

/-- All lexemes of an input. -/
def lex (cond : σ) (input : List α) : List (Lexeme α τ) := scanner.scan input.length cond input

@[simp] theorem lex_nil (cond : σ) : scanner.lex cond [] = [] := rfl

theorem best_bounded {rules : List (Rule α τ)} {input : List α} {t : τ} {n : Nat}
    (won : best rules input = some (t, n)) : n ≤ input.length :=
  best_within (fun _ _ _ bounded _ => bounded) won

theorem lex_match {cond : σ} {input : List α} {t : τ} {n : Nat}
    (won : best (scanner.rules cond) input = some (t, n + 1)) :
    scanner.lex cond input = ⟨t, input.take (n + 1), input.drop (n + 1)⟩ ::
      match scanner.next cond t with
      | some cond' => scanner.lex cond' (input.drop (n + 1))
      | none => [] := by
  cases input with
  | nil => exact absurd (best_bounded won) (by simp)
  | cons c cs =>
    have rest (cond : σ) :
        scanner.scan cs.length cond (cs.drop n) = scanner.lex cond (cs.drop n) :=
      scanner.scan_fuel (by simp) (Nat.le_refl _)
    simp only [lex, List.length_cons, scan, won, List.drop_succ_cons, rest]

theorem lex_best {cond : σ} {input : List α} {l : Lexeme α τ}
    (inside : l ∈ scanner.lex cond input) :
    ∃ cond', best (scanner.rules cond') (l.text ++ l.rest) = some (l.token, l.text.length) := by
  have scanned {fuel : Nat} {cond : σ} {input : List α}
    (inside : l ∈ scanner.scan fuel cond input) :
      ∃ cond', best (scanner.rules cond') (l.text ++ l.rest) =
        some (l.token, l.text.length) := by
    induction fuel generalizing cond input with
    | zero => cases inside
    | succ fuel ih =>
      cases input with
      | nil => cases inside
      | cons c cs =>
        simp only [scan] at inside
        split at inside
        · rename_i t n won
          rcases List.mem_cons.mp inside with rfl | inside
          · have bounded : n + 1 ≤ (c :: cs).length := best_bounded won
            refine ⟨cond, ?_⟩
            rw [← List.drop_succ_cons (a := c), List.take_append_drop, List.length_take,
              Nat.min_eq_left bounded]
            exact won
          · split at inside
            · exact ih inside
            · cases inside
        · exact ih inside
  exact scanned inside

/-- Part of an input, scanned in front of the rest of it: its lexemes and the start
condition behind it. -/
inductive Scans : List α → σ → List α → List (Lexeme α τ) → σ → Prop where
  | done (post : List α) (cond : σ) : Scans post cond [] [] cond
  | step {post text : List α} {cond cond' last : σ} {t : τ} {n : Nat} {ls : List (Lexeme α τ)}
      (won : best (scanner.rules cond) (text ++ post) = some (t, n + 1)) (inside : n < text.length)
      (next : scanner.next cond t = some cond')
      (rest : Scans post cond' (text.drop (n + 1)) ls last) :
      Scans post cond text (⟨t, text.take (n + 1), text.drop (n + 1) ++ post⟩ :: ls) last

variable {scanner}

theorem Scans.lex {post text : List α} {cond last : σ} {ls : List (Lexeme α τ)}
    (scans : scanner.Scans post cond text ls last) :
    scanner.lex cond (text ++ post) = ls ++ scanner.lex last post := by
  induction scans with
  | done => rfl
  | step won inside next rest ih =>
    rw [lex_match scanner won, next, List.take_append_of_le_length inside,
      List.drop_append_of_le_length inside]
    simp only [ih, List.cons_append]

theorem Scans.one {post text : List α} {cond last : σ} {t : τ} (nonempty : text ≠ [])
    (won : best (scanner.rules cond) (text ++ post) = some (t, text.length))
    (next : scanner.next cond t = some last) :
    scanner.Scans post cond text [⟨t, text, post⟩] last := by
  cases text with
  | nil => exact absurd rfl nonempty
  | cons c cs =>
    have whole : (c :: cs).take (cs.length + 1) = c :: cs := by simp
    have nothing : (c :: cs).drop (cs.length + 1) = [] := by simp
    have rest : scanner.Scans post last ((c :: cs).drop (cs.length + 1)) [] last := by
      rw [nothing]
      exact Scans.done post last
    have single := Scans.step won (Nat.lt_succ_self _) next rest
    rw [whole, nothing, List.nil_append] at single
    exact single

/-- The lexemes of a part, if it is scanned to its end. -/
def scanPart (scanner : Scanner α σ τ) (post : List α) :
    Nat → σ → List α → Option (List (Lexeme α τ) × σ)
  | _, cond, [] => some ([], cond)
  | 0, _, _ => none
  | fuel + 1, cond, c :: cs =>
    match best (scanner.rules cond) (c :: cs ++ post) with
    | some (t, n + 1) =>
      if n < (c :: cs).length then
        (scanner.next cond t).bind fun cond' =>
          (scanPart scanner post fuel cond' (cs.drop n)).map fun (ls, last) =>
            (⟨t, (c :: cs).take (n + 1), cs.drop n ++ post⟩ :: ls, last)
      else none
    | _ => none

theorem scans_of_scanPart {post text : List α} {fuel : Nat} {cond last : σ} {ls : List (Lexeme α τ)}
    (found : scanPart scanner post fuel cond text = some (ls, last)) :
    scanner.Scans post cond text ls last := by
  induction fuel generalizing cond text ls with
  | zero =>
    cases text with
    | nil =>
      cases found
      exact Scans.done ..
    | cons c cs => cases found
  | succ fuel ih =>
    cases text with
    | nil =>
      cases found
      exact Scans.done ..
    | cons c cs =>
      simp only [scanPart] at found
      split at found
      · rename_i t n won
        split at found
        · rename_i inside
          obtain ⟨cond', next, rest⟩ := Option.bind_eq_some_iff.mp found
          obtain ⟨⟨ms, last'⟩, later, same⟩ := Option.map_eq_some_iff.mp rest
          cases same
          exact Scans.step won inside next (ih later)
        · cases found
      · cases found

theorem Scans.append {post text more : List α} {cond middle last : σ} {ls ms : List (Lexeme α τ)}
    (first : scanner.Scans (more ++ post) cond text ls middle)
    (second : scanner.Scans post middle more ms last) :
    scanner.Scans post cond (text ++ more) (ls ++ ms) last := by
  generalize whole : more ++ post = rest at first
  induction first with
  | done => exact second
  | @step text cond cond' last' t n ls won inside next _ ih =>
    subst whole
    have later := ih second
    have longer : n < (text ++ more).length := by
      rw [List.length_append]
      omega
    have front : (text ++ more).take (n + 1) = text.take (n + 1) :=
      List.take_append_of_le_length inside
    have back : (text ++ more).drop (n + 1) = text.drop (n + 1) ++ more :=
      List.drop_append_of_le_length inside
    have won' : best (scanner.rules cond) ((text ++ more) ++ post) = some (t, n + 1) := by
      rw [List.append_assoc]
      exact won
    have all := Scans.step won' longer next (back ▸ later)
    rw [front, back, List.append_assoc] at all
    exact all

end Scanner

end LC3Tools.Flex
