import LC3Tools.Cpp.Rows
import LC3Tools.Settles

/-! How macro expansion comes to an end: the names that a macro brings hide more macros than the
name in whose place they come. -/
namespace LC3Tools.Cpp

/-! What a row may hold while it is expanded. -/
section
variable {M : Finset Nat} {hidesets later : Hidesets} {ts us : List Token} {st : Globals}
  {env : Env}

/-- No number of a hideset is used that has not been given out, and none of another macro. -/
def Hides (M : Finset Nat) (hidesets : Hidesets) (ts : List Token) : Prop :=
  ∀ t ∈ ts, Within M hidesets t.hideset

theorem Hides.mono (hides : Hides M hidesets ts) (extends_ : hidesets <+: later) :
    Hides M later ts :=
  fun t mem => (hides t mem).mono extends_

theorem Hides.append (first : Hides M hidesets ts) (second : Hides M hidesets us) :
    Hides M hidesets (ts ++ us) := by
  intro t mem
  exact (List.mem_append.mp mem).elim (first t) (second t)

theorem Hides.left (hides : Hides M hidesets (ts ++ us)) : Hides M hidesets ts :=
  fun t mem => hides t (List.mem_append_left _ mem)

theorem Hides.right (hides : Hides M hidesets (ts ++ us)) : Hides M hidesets us :=
  fun t mem => hides t (List.mem_append_right _ mem)

theorem Hides.sub (hides : Hides M hidesets us)
    (sub : (ts.map Token.kind).Sublist (us.map Token.kind)) : Hides M hidesets ts := by
  intro t mem
  obtain ⟨u, there, same⟩ := hideset_of_sub sub mem
  exact same ▸ hides u there

theorem Hides.singleton {t : Token} (within : Within M hidesets t.hideset) :
    Hides M hidesets [t] := by
  intro u mem
  rwa [List.mem_singleton.mp mem]

theorem Hides.cons {t : Token} (within : Within M hidesets t.hideset)
    (hides : Hides M hidesets ts) : Hides M hidesets (t :: ts) :=
  List.forall_mem_cons.mpr ⟨within, hides⟩

theorem Hides.spaced {prev : Option Token} (hides : Hides M hidesets ts) :
    Hides M hidesets (spaced prev ts) :=
  hides.sub (spaced_kind.symm ▸ List.Sublist.refl (ts.map Token.kind))

theorem Hides.spacedIf {prev : Option Token} {space : Bool} {t : Token}
    (within : Within M hidesets t.hideset) :
    Hides M hidesets [spacedIf space prev t] := by
  refine .singleton ?_
  rwa [spacedIf_hideset]

theorem Hides.head {t : Token} (hides : Hides M hidesets (t :: ts)) : Within M hidesets t.hideset :=
  hides t (List.mem_cons_self ..)

theorem Hides.tail {t : Token} (hides : Hides M hidesets (t :: ts)) : Hides M hidesets ts :=
  fun u mem => hides u (List.mem_cons_of_mem _ mem)

/-- What has become of the hidesets, with what hides no other macros than before. -/
structure Later (M : Finset Nat) (hidesets later : Hidesets) (ts : List Token) : Prop where
  wellFormed : WellFormed M later
  extends_ : hidesets <+: later
  hides : Hides M later ts

/-- How many macros more a name can hide. -/
def weight (hidesets : Hidesets) (kind : Bool × Nat) : Nat :=
  if kind.1 then 31 - (hidesets.set kind.2).length else 0

def weights (hidesets : Hidesets) (ts : List Token) : List Nat :=
  ts.map fun t => weight hidesets t.kind

/-- The rows that weigh less than a row are expanded. -/
def Runs (M : Finset Nat) (st : Globals) (load : List Nat)
    (run : Nat → List Token → Globals → Except Stop (List Token × Globals)) :
    Prop :=
  ∀ row later, WellFormed M later.hidesets → st.hidesets <+: later.hidesets →
    Hides M later.hidesets row →
    Multiset.IsDershowitzMannaLT (weights later.hidesets row : Multiset Nat) load →
    Settles .fuel (fun fuel => run fuel row later) fun r => Later M later.hidesets r.2.hidesets r.1

theorem candidate_some {t : Token} {np : Nat} {n : Nlist}
    (is : candidate env st t = .ok (some (np, n))) :
    t.type = .NAME ∧ lookup env t = some np ∧ env.table[np]? = some n ∧
      (n.isDefined || n.isMac) = true ∧
      (t.hideset ≠ 0 → np ∉ st.hidesets.set t.hideset) := by
  unfold candidate at is
  split at is
  · exact nomatch is
  rename_i name
  have is_name : t.type = .NAME := not_not.mp name
  split at is
  · exact nomatch is
  rename_i found
  split at is
  · exact nomatch is
  rename_i np' _ n' there
  split at is
  · rename_i flags
    by_cases empty : t.hideset = 0
    · simp only [empty, ne_eq, not_true, if_false] at is
      obtain ⟨rfl, rfl⟩ := Prod.mk.inj (Option.some.inj (Except.ok.inj is))
      exact ⟨is_name, found, there, flags, fun hides => absurd empty hides⟩
    · simp only [ne_eq, empty, not_false_eq_true, if_true, checkhideset] at is
      split at is
      · exact nomatch is
      · change Except.ok (if (st.hidesets.set t.hideset).contains np' then none
          else some (np', n')) = _ at is
        split at is
        · exact nomatch is
        · rename_i hidden
          obtain ⟨rfl, rfl⟩ := Prod.mk.inj (Option.some.inj (Except.ok.inj is))
          exact ⟨is_name, found, there, flags, fun _ mem => hidden (List.contains_iff_mem.mpr mem)⟩
  · exact nomatch is

/-- Macros that `expand` replaces. -/
def Nlist.expands (n : Nlist) : Bool := n.isDefined && !n.isMac && n.val ≠ .KDEFINED

end

end LC3Tools.Cpp
