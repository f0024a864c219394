import Mathlib.Data.List.Nodup
import Mathlib.Logic.Function.Basic

/-! Chains over a heap: each live cell is once in the chain of its key, and nothing else is in a
chain. -/
namespace LC3Tools.Chains

universe u v w

variable {P : Type u} {V : Type v} {K : Type w} {heap : P → Option V} {key : V → K}
  {chains : K → List P}

structure Indexes (heap : P → Option V) (key : V → K) (chains : K → List P) : Prop where
  mem : ∀ k p, p ∈ chains k ↔ ∃ cell, heap p = some cell ∧ key cell = k
  once : ∀ k, (chains k).Nodup

namespace Indexes

theorem empty : Indexes (fun _ => none) key (fun _ => ([] : List P)) := by
  constructor <;> simp

theorem live (indexes : Indexes heap key chains) {k : K} : ∀ p ∈ chains k, (heap p).isSome := by
  intro p mem
  obtain ⟨cell, here, -⟩ := (indexes.mem k p).mp mem
  rw [here]
  rfl

variable [DecidableEq P] [DecidableEq K]

theorem cons (indexes : Indexes heap key chains) {p : P} (free : heap p = none) (cell : V) :
    Indexes (Function.update heap p (some cell)) key
      (Function.update chains (key cell) (p :: chains (key cell))) := by
  have unchained (k : K) : p ∉ chains k := by
    intro mem
    simpa [free] using (indexes.mem k p).mp mem
  constructor
  · intro k q
    have old := indexes.mem k q
    simp only [Function.update_apply]
    by_cases new : q = p
    · subst new
      have no := unchained k
      split <;> grind
    · split <;> grind
  · intro k
    rw [Function.update_apply]
    split
    · exact List.nodup_cons.mpr ⟨unchained _, indexes.once _⟩
    · exact indexes.once k

theorem erase (indexes : Indexes heap key chains) {p : P} {cell : V} (here : heap p = some cell) :
    Indexes (Function.update heap p none) key
      (Function.update chains (key cell) ((chains (key cell)).erase p)) := by
  constructor
  · intro k q
    have old := indexes.mem k q
    simp only [Function.update_apply]
    by_cases gone : q = p
    · subst gone
      rw [here] at old
      have once := indexes.once k
      split <;> grind
    · split <;> grind
  · intro k
    rw [Function.update_apply]
    split
    · exact (indexes.once _).erase p
    · exact indexes.once k

end Indexes

end LC3Tools.Chains
