import Mathlib.Data.Fintype.Card
import Mathlib.Data.Finset.Card

/-! Least costs over the nodes of a finite graph. A cost that falls is spread along the edges at
once, and at every node stands a mark of where its cost came from. -/
namespace LC3Tools.Relaxation

structure Edge (N R : Type) where
  head : N
  weight : Nat
  mark : R

structure Costs (N R : Type) where
  cost : N → Nat
  mark : N → R

variable {N R : Type} [DecidableEq N] {edges : N → List (Edge N R)} {fuel : Nat} {p : Costs N R}
  {n v : N} {c : Nat} {m : R}

def Costs.set (p : Costs N R) (n : N) (c : Nat) (m : R) : Costs N R where
  cost := Function.update p.cost n c
  mark := Function.update p.mark n m

/-- A cost of `n` has fallen to `c`. Paths are followed over so many edges at the most. -/
def spread (edges : N → List (Edge N R)) : Nat → N → Nat → Costs N R → Costs N R
  | 0, _, _, p => p
  | fuel + 1, n, c, p =>
    (edges n).foldl (fun p e =>
      if c + e.weight < p.cost e.head then
        spread edges fuel e.head (c + e.weight) (p.set e.head (c + e.weight) e.mark)
      else p) p

def improve (edges : N → List (Edge N R)) (fuel : Nat) (n : N) (c : Nat) (m : R) (p : Costs N R) :
    Costs N R :=
  if c < p.cost n then spread edges fuel n c (p.set n c m) else p

@[simp] theorem set_cost_self : (p.set n c m).cost n = c := Function.update_self ..

@[simp] theorem set_mark_self : (p.set n c m).mark n = m := Function.update_self ..

theorem set_cost_ne (other : v ≠ n) : (p.set n c m).cost v = p.cost v :=
  Function.update_of_ne other ..

theorem set_mark_ne (other : v ≠ n) : (p.set n c m).mark v = p.mark v :=
  Function.update_of_ne other ..

theorem spread_succ : spread edges (fuel + 1) n c p =
    (edges n).foldl (fun p e => improve edges fuel e.head (c + e.weight) e.mark p) p := rfl

theorem set_cost_le (less : c < p.cost n) : (p.set n c m).cost v ≤ p.cost v := by
  by_cases same : v = n
  · subst same
    rw [set_cost_self]
    omega
  · exact (set_cost_ne same).le

/-- One fall after the other, each along an edge from a node that stays at its cost, which is at
least `c`. -/
inductive Falls (edges : N → List (Edge N R)) (c : Nat) (p : Costs N R) : Costs N R → Prop where
  | refl : Falls edges c p p
  | fall {q : Costs N R} {n : N} {e : Edge N R} (before : Falls edges c p q) (mem : e ∈ edges n)
      (above : c ≤ q.cost n) (less : q.cost n + e.weight < q.cost e.head) :
      Falls edges c p (q.set e.head (q.cost n + e.weight) e.mark)

theorem Falls.trans {q r : Costs N R} {d : Nat} (first : Falls edges c p q)
    (second : Falls edges d q r) (le : c ≤ d) :
    Falls edges c p r := by
  induction second with
  | refl => exact first
  | fall before mem above less ih => exact .fall ih mem (le.trans above) less

theorem Falls.cost_le {q : Costs N R} (falls : Falls edges c p q) : q.cost v ≤ p.cost v := by
  induction falls with
  | refl => exact Nat.le_refl _
  | fall before mem above less ih => exact (set_cost_le less).trans ih

theorem Falls.low {q : Costs N R} (falls : Falls edges c p q) (low : p.cost v ≤ c) :
    q.cost v = p.cost v := by
  induction falls with
  | refl => rfl
  | @fall q n e before mem above less ih =>
    have other : v ≠ e.head := by
      rintro rfl
      omega
    exact (set_cost_ne other).trans ih

theorem foldl_keeps {A S : Type} (Good : S → Prop) (step : S → A → S) (es : List A) {s : S}
    (keeps : ∀ e ∈ es, ∀ s, Good s → Good (step s e)) (good : Good s) : Good (es.foldl step s) := by
  induction es generalizing s with
  | nil => exact good
  | cons e es ih =>
    exact ih (fun d mem => keeps d (List.mem_cons_of_mem _ mem))
      (keeps e (List.mem_cons_self ..) s good)

theorem improve_falls {q : Costs N R} {e : Edge N R}
    (inner : q.cost n + e.weight < q.cost e.head →
      Falls edges (c + e.weight) (q.set e.head (c + e.weight) e.mark)
        (spread edges fuel e.head (c + e.weight) (q.set e.head (c + e.weight) e.mark)))
    (here : q.cost n = c) (mem : e ∈ edges n) :
      Falls edges c q (improve edges fuel e.head (c + e.weight) e.mark q) := by
  by_cases less : c + e.weight < q.cost e.head
  · have first : Falls edges c q (q.set e.head (c + e.weight) e.mark) := by
      rw [← here] at less ⊢
      exact .fall .refl mem (Nat.le_refl _) less
    rw [improve, if_pos less]
    exact first.trans (inner (here ▸ less)) (Nat.le_add_right ..)
  · rw [improve, if_neg less]
    exact .refl

theorem spread_falls (here : p.cost n = c) : Falls edges c p (spread edges fuel n c p) := by
  induction fuel generalizing n c p with
  | zero => exact .refl
  | succ fuel ih =>
    refine (foldl_keeps (fun q => Falls edges c p q ∧ q.cost n = c) _ _ (fun e mem q good => ?_)
      ⟨.refl, here⟩).1
    have step : Falls edges c q (improve edges fuel e.head (c + e.weight) e.mark q) :=
      improve_falls (fun _ => ih set_cost_self) good.2 mem
    exact ⟨good.1.trans step (Nat.le_refl _), (step.low good.2.le).trans good.2⟩

theorem improve_self_le : (improve edges fuel n c m p).cost n ≤ c := by
  by_cases less : c < p.cost n
  · rw [improve, if_pos less]
    exact (spread_falls set_cost_self).cost_le.trans_eq set_cost_self
  · rw [improve, if_neg less]
    omega

/-- An edge that improves nothing. -/
def Met (p : Costs N R) (n : N) (e : Edge N R) : Prop := p.cost e.head ≤ p.cost n + e.weight

def Closed (edges : N → List (Edge N R)) (p : Costs N R) : Prop := ∀ n, ∀ e ∈ edges n, Met p n e

theorem Met.set {e : Edge N R} (met : Met p v e) (less : c < p.cost n) (other : v ≠ n) :
    Met (p.set n c m) v e := by
  have falls : (p.set n c m).cost e.head ≤ p.cost e.head := set_cost_le less
  change _ ≤ (p.set n c m).cost v + e.weight
  rw [set_cost_ne other]
  exact falls.trans met

section
variable [Fintype N]

/-- The nodes that can no longer improve by a cost of `c`. -/
def low (p : Costs N R) (c : Nat) : Finset N := Finset.univ.filter fun v => p.cost v ≤ c

omit [DecidableEq N] in
theorem mem_low : v ∈ low p c ↔ p.cost v ≤ c := by simp [low]

theorem low_card {q : Costs N R} {d : Nat} (below : ∀ u, q.cost u ≤ p.cost u) (le : c ≤ d)
    (less : d < q.cost n) :
    (low p c).card < (low (q.set n d m) d).card := by
  refine Finset.card_lt_card ⟨fun u mem => ?_, fun all => ?_⟩
  · have falls : (q.set n d m).cost u ≤ q.cost u := set_cost_le less
    exact mem_low.mpr (falls.trans ((below u).trans ((mem_low.mp mem).trans le)))
  · have still := mem_low.mp (all (mem_low.mpr set_cost_self.le))
    have under := below n
    omega

/-- A path that improves comes to no node twice, so that there are always edges enough for it. -/
theorem spread_met (enough : Fintype.card N ≤ fuel + (low p c).card) (here : p.cost n = c)
    {e : Edge N R} (mem : e ∈ edges v) (met : v = n ∨ Met p v e) :
      Met (spread edges fuel n c p) v e := by
  induction fuel generalizing n c p v e with
  | zero =>
    rcases met with rfl | met
    · have all : low p c = Finset.univ :=
        Finset.eq_univ_of_card _ (Nat.le_antisymm (Finset.card_le_univ _) (by omega))
      have bound : p.cost e.head ≤ c := mem_low.mp (all ▸ Finset.mem_univ _)
      change p.cost e.head ≤ p.cost v + e.weight
      omega
    · exact met
  | succ fuel ih =>
    let Good (q : Costs N R) : Prop := (∀ u, q.cost u ≤ p.cost u) ∧ q.cost n = c
    have good_step {d : Edge N R} (mem : d ∈ edges n) {q : Costs N R} (good : Good q) :
        Good (improve edges fuel d.head (c + d.weight) d.mark q) := by
      have step : Falls edges c q (improve edges fuel d.head (c + d.weight) d.mark q) :=
        improve_falls (fun _ => spread_falls set_cost_self) good.2 mem
      exact ⟨fun u => step.cost_le.trans (good.1 u), (step.low good.2.le).trans good.2⟩
    have met_step {d f : Edge N R} {u : N} {q : Costs N R} (good : Good q) (mem : f ∈ edges u)
      (met : Met q u f) :
        Met (improve edges fuel d.head (c + d.weight) d.mark q) u f := by
      by_cases less : c + d.weight < q.cost d.head
      · rw [improve, if_pos less]
        have more := low_card (m := d.mark) good.1 (Nat.le_add_right c d.weight) less
        refine ih (by omega) set_cost_self mem ?_
        by_cases head : u = d.head
        · exact .inl head
        · exact .inr (met.set less head)
      · rwa [improve, if_neg less]
    have start : Good p := ⟨fun _ => Nat.le_refl _, here⟩
    rw [spread_succ]
    rcases met with rfl | met
    · obtain ⟨before, behind, split⟩ := List.append_of_mem mem
      rw [split, List.foldl_append, List.foldl_cons]
      have reached := foldl_keeps Good _ before
        (fun d mem q => good_step (split ▸ List.mem_append_left _ mem)) start
      have next := good_step mem reached
      have kept := foldl_keeps (fun q => Good q ∧ q.cost e.head ≤ c + e.weight)
        (fun p e => improve edges fuel e.head (c + e.weight) e.mark p) behind
        (fun d later q both => by
          have inside : d ∈ edges v :=
            split ▸ List.mem_append_right _ (List.mem_cons_of_mem _ later)
          have step : Falls edges c q (improve edges fuel d.head (c + d.weight) d.mark q) :=
            improve_falls (fun _ => spread_falls set_cost_self) both.1.2 inside
          exact ⟨good_step inside both.1, step.cost_le.trans both.2⟩)
        ⟨next, improve_self_le⟩
      change _ ≤ _ + _
      rw [kept.1.2]
      exact kept.2
    · exact (foldl_keeps (fun q => Good q ∧ Met q v e) _ _
        (fun d inside q both => ⟨good_step inside both.1, met_step both.1 mem both.2⟩)
        ⟨start, met⟩).2

theorem improve_closed (enough : Fintype.card N ≤ fuel) (closed : Closed edges p) :
    Closed edges (improve edges fuel n c m p) := by
  by_cases less : c < p.cost n
  · rw [improve, if_pos less]
    intro v e mem
    refine spread_met (by omega) set_cost_self mem ?_
    by_cases here : v = n
    · exact .inl here
    · exact .inr ((closed v e mem).set less here)
  · rwa [improve, if_neg less]

end

/-- The marks lead from a node over edges to one whose cost has a ground of its own. -/
inductive Backed (Base : N → Nat → R → Prop) (edges : N → List (Edge N R)) (p : Costs N R) : N →
    Prop where
  | base (n : N) (ground : Base n (p.cost n) (p.mark n)) : Backed Base edges p n
  | edge (n : N) (e : Edge N R) (mem : e ∈ edges n) (marked : p.mark e.head = e.mark)
      (above : p.cost n + e.weight ≤ p.cost e.head) (behind : Backed Base edges p n) :
        Backed Base edges p e.head

variable {Base : N → Nat → R → Prop} {top : Nat}

theorem Backed.set_below (backed : Backed Base edges p v) (less : p.cost v < p.cost n) :
    Backed Base edges (p.set n c m) v := by
  induction backed with
  | base v ground =>
    have other : v ≠ n := by
      rintro rfl
      omega
    refine .base v ?_
    rwa [set_cost_ne other, set_mark_ne other]
  | edge v e mem marked above behind ih =>
    have other : e.head ≠ n := by
      intro same
      rw [same] at less
      omega
    have before : v ≠ n := by
      rintro rfl
      omega
    refine .edge v e mem ?_ ?_ (ih (by omega))
    · rwa [set_mark_ne other]
    · rwa [set_cost_ne other, set_cost_ne before]

theorem Backed.set (backed : Backed Base edges p v) (less : c < p.cost n)
    (at_n : Backed Base edges (p.set n c m) n) :
    Backed Base edges (p.set n c m) v := by
  induction backed with
  | base v ground =>
    by_cases here : v = n
    · exact here ▸ at_n
    · refine .base v ?_
      rwa [set_cost_ne here, set_mark_ne here]
  | edge v e mem marked above behind ih =>
    by_cases here : e.head = n
    · exact here ▸ at_n
    · refine .edge v e mem ?_ ?_ ih
      · rwa [set_mark_ne here]
      · rw [set_cost_ne here]
        exact le_trans (Nat.add_le_add_right (set_cost_le less) _) above

/-- No cost is above the top, and all that are below it are backed. -/
structure Grounded (Base : N → Nat → R → Prop) (edges : N → List (Edge N R)) (top : Nat)
    (p : Costs N R) : Prop where
  bound : ∀ v, p.cost v ≤ top
  backed : ∀ v, p.cost v < top → Backed Base edges p v

theorem Grounded.set (grounded : Grounded Base edges top p) (less : c < p.cost n)
    (at_n : Backed Base edges (p.set n c m) n) : Grounded Base edges top (p.set n c m) where
  bound v := (set_cost_le less).trans (grounded.bound v)
  backed v low := by
    by_cases here : v = n
    · exact here ▸ at_n
    · rw [set_cost_ne here] at low
      exact (grounded.backed v low).set less at_n

theorem Falls.grounded {q : Costs N R} (falls : Falls edges c p q)
    (grounded : Grounded Base edges top p) :
    Grounded Base edges top q := by
  induction falls with
  | refl => exact grounded
  | @fall q n e before mem above less ih =>
    have bound := ih.bound e.head
    have behind := (ih.backed n (by omega)).set_below (n := e.head) (c := q.cost n + e.weight)
      (m := e.mark) (by omega)
    have other : n ≠ e.head := by
      intro same
      rw [← same] at less
      omega
    refine ih.set less (.edge n e mem set_mark_self ?_ behind)
    rw [set_cost_ne other, set_cost_self]

theorem improve_grounded (grounded : Grounded Base edges top p) (ground : Base n c m) :
    Grounded Base edges top (improve edges fuel n c m p) := by
  by_cases less : c < p.cost n
  · rw [improve, if_pos less]
    refine (spread_falls set_cost_self).grounded (grounded.set less (.base n ?_))
    rwa [set_cost_self, set_mark_self]
  · rwa [improve, if_neg less]

theorem improve_le : (improve edges fuel n c m p).cost v ≤ p.cost v := by
  by_cases less : c < p.cost n
  · rw [improve, if_pos less]
    exact (spread_falls set_cost_self).cost_le.trans (set_cost_le less)
  · rw [improve, if_neg less]

end LC3Tools.Relaxation
