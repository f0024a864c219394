import LC3Tools.Cpp.Expand
import Mathlib.Data.List.TakeWhile

/-! What becomes of the tokens of a row, as far as it decides about their expansion. -/
namespace LC3Tools.Cpp

/-- What of a token decides about its expansion. -/
def Token.kind (t : Token) : Bool × Nat := (t.type = .NAME, t.hideset)

section
variable {prev : Option Token} {t : Token} {ts row done : List Token}

theorem makespace_type : (makespace prev t).type = t.type := by
  unfold makespace
  dsimp only
  split
  · split <;> rfl
  · split <;> rfl

theorem makespace_hideset : (makespace prev t).hideset = t.hideset := by
  unfold makespace
  dsimp only
  split
  · split <;> rfl
  · split <;> rfl

theorem makespace_kind : (makespace prev t).kind = t.kind := by
  unfold Token.kind
  rw [makespace_type, makespace_hideset]

theorem spacedIf_kind {space : Bool} : (spacedIf space prev t).kind = t.kind := by
  unfold spacedIf
  split
  · exact makespace_kind
  · rfl

theorem spacedIf_hideset {space : Bool} : (spacedIf space prev t).hideset = t.hideset :=
  congrArg Prod.snd spacedIf_kind

theorem spaced_kind : (spaced prev ts).map Token.kind = ts.map Token.kind := by
  cases ts with
  | nil => rfl
  | cons t ts => rw [spaced, List.map_cons, makespace_kind, List.map_cons]

theorem hideset_of_sub {us : List Token} (sub : (ts.map Token.kind).Sublist (us.map Token.kind))
    (mem : t ∈ ts) :
    ∃ u ∈ us, u.hideset = t.hideset := by
  obtain ⟨u, there, same⟩ := List.mem_map.mp (sub.subset (List.mem_map_of_mem mem))
  exact ⟨u, there, congrArg Prod.snd same⟩

end

/-! What of a row a call takes. -/
section
variable {before after : List Token} {src : List (List Token)}

theorem newlines_taken {row : List Token} : ∀ t ∈ row.takeWhile (·.type = .NL), t.type = .NL := by
  intro t mem
  have taken := List.mem_takeWhile_imp mem
  exact of_decide_eq_true taken

/-- Only ends of lines are passed. The end of the input is a token of its own, which goes. -/
def Sought.Splits (before row : List Token) : Sought → Prop
  | .paren before' after src | .other before' after src =>
    before' ++ after ++ src.flatten = row ∧ (∃ t ts, after = t :: ts) ∧ ∀ t ∈ before', t ∈ before ∨
      t.type = .NL
  | .beyond row' (some src) => ∃ t, row' ++ t :: src.flatten = row
  | .beyond _ none => True

theorem seek_here {t : Token} {ts : List Token} (there : after.dropWhile (·.type = .NL) = t :: ts) :
    before ++ after.takeWhile (·.type = .NL) ++ t :: ts ++ src.flatten =
      before ++ after ++ src.flatten ∧
      (∃ u us, t :: ts = u :: us) ∧ ∀ u ∈ before ++ after.takeWhile (·.type = .NL), u ∈ before ∨
        u.type = .NL := by
  refine ⟨?_, ⟨t, ts, rfl⟩, fun u mem => (List.mem_append.mp mem).imp id fun passed =>
    newlines_taken u passed⟩
  rw [← there, List.append_assoc before, List.takeWhile_append_dropWhile]

theorem seek_splits (before after : List Token) (src : List (List Token)) :
    (seek before after src).Splits before (before ++ after ++ src.flatten) := by
  induction src generalizing before after with
  | nil =>
    unfold seek
    split
    · rename_i t ts there
      dsimp only
      split <;> exact seek_here there
    · trivial
  | cons line src ih =>
    unfold seek
    split
    · rename_i t ts there
      dsimp only
      split <;> exact seek_here there
    · rename_i none_left
      have newlines : ∀ t ∈ after, t.type = .NL :=
        fun t mem => of_decide_eq_true (List.dropWhile_eq_nil_iff.mp none_left t mem)
      dsimp only
      split
      · rename_i ends
        cases last : line.getLast? with
        | none =>
          rw [last] at ends
          exact nomatch ends
        | some t =>
          refine ⟨t, ?_⟩
          have whole := List.dropLast_append_getLast? t last
          rw [List.flatten_cons, ← List.append_assoc, ← whole, List.dropLast_concat]
          simp
      · have rest := ih (before ++ after) line
        rw [List.flatten_cons, ← List.append_assoc]
        have passed {t : Token} (mem : t ∈ before ++ after ∨ t.type = .NL) : t ∈ before ∨
          t.type = .NL :=
          mem.elim (fun old => (List.mem_append.mp old).imp id (newlines t)) .inr
        cases sought : seek (before ++ after) line src with
        | paren before' after' src' =>
          rw [sought] at rest
          exact ⟨rest.1, rest.2.1, fun t mem => passed (rest.2.2 t mem)⟩
        | other before' after' src' =>
          rw [sought] at rest
          exact ⟨rest.1, rest.2.1, fun t mem => passed (rest.2.2 t mem)⟩
        | beyond row src' =>
          rw [sought] at rest
          cases src' with
          | none => trivial
          | some src' => exact rest

/-- A part of a row in front, and one behind it. -/
def Splits (out row out' rest : List Token) : Prop :=
  ∃ mid, out' = out ++ mid ∧ ((mid ++ rest).map Token.kind).Sublist (row.map Token.kind)

theorem Splits.cons {out row out' rest : List Token} {t u : Token}
    (splits : Splits (out ++ [u]) row out' rest)
    (same : u.kind = t.kind) : Splits out (t :: row) out' rest := by
  obtain ⟨mid, rfl, sub⟩ := splits
  refine ⟨u :: mid, by rw [List.append_assoc, List.singleton_append], ?_⟩
  rw [List.cons_append, List.map_cons, same, List.map_cons]
  exact sub.cons_cons _

theorem Splits.drop {out row out' rest : List Token} {t : Token}
    (splits : Splits out row out' rest) : Splits out (t :: row) out' rest := by
  obtain ⟨mid, is, sub⟩ := splits
  exact ⟨mid, is, sub.cons _⟩

def Collected.Splits (out row : List Token) : Collected → Prop
  | .closed out' rest | .ended out' rest => Cpp.Splits out row out' rest
  | .more _ _ out' => Cpp.Splits out row out' []

theorem Collected.Splits.cons {out row : List Token} {t u : Token} {c : Collected}
    (splits : c.Splits (out ++ [u]) row)
    (same : u.kind = t.kind) : c.Splits out (t :: row) := by
  cases c with
  | closed out' rest => exact Cpp.Splits.cons splits same
  | ended out' rest => exact Cpp.Splits.cons splits same
  | more needspace parens out' => exact Cpp.Splits.cons splits same

end

end LC3Tools.Cpp
