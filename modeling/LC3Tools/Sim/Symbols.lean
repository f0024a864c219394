import LC3Tools.Assembler.Symbols
import LC3Tools.Chains
import LC3Tools.Runs

/-! The symbol table of the simulator. Every symbol is in a chain with its hash value, and
in a chain with its address. -/
namespace LC3Tools.Sim.Symbols
open Chains
open Assembler (symbolHash sameName sameName_iff symbolHash_same)

abbrev Addr := BitVec 16

structure Symbol where
  name : List Byte
  addr : Addr
  deriving DecidableEq

/-- A chain is the list of the pointers to its symbols. What was freed is gone from the heap. -/
structure Table where
  heap : Nat → Option Symbol
  fresh : Nat
  hash : Nat → List Nat
  names : Addr → List Nat

def Table.empty : Table := ⟨fun _ => none, 0, fun _ => [], fun _ => []⟩

/-- The loop of `find_symbol` along a chain. Without a result, it reads what was freed. -/
def walk (T : Table) (symbol : List Byte) : List Nat → Option (Option Nat)
  | [] => some none
  | p :: rest => do
    let sym ← T.heap p
    if sameName symbol sym.name then some (some p) else walk T symbol rest

def findSymbol (T : Table) (symbol : List Byte) : Option (Option Nat) :=
  walk T symbol (T.hash (symbolHash symbol))

/-- The result and the table. -/
def addSymbol (T : Table) (symbol : List Byte) (addr : Addr) (dupOk : Bool) :
    Option (Int × Table) := do
  match ← findSymbol T symbol with
  | none =>
    let h := symbolHash symbol
    some (0, {
      heap := Function.update T.heap T.fresh (some ⟨symbol, addr⟩)
      fresh := T.fresh + 1
      hash := Function.update T.hash h (T.fresh :: T.hash h)
      names := Function.update T.names addr (T.fresh :: T.names addr) })
  | some p =>
    if !dupOk then some (-1, T)
    else
      let sym ← T.heap p
      some (0, { T with heap := Function.update T.heap p (some { sym with addr := addr }) })

/-- `for (find = &lc3_sym_hash[h]; *find != s; ...)` and `*find = s->next_with_hash`. Without
a result, it runs off the chain. -/
def unlink (s : Nat) : List Nat → Option (List Nat)
  | [] => none
  | q :: rest => if q = s then some rest else (unlink s rest).map (q :: ·)

/-- The symbols of the chain of an address, from the first one on. -/
def removeChain (addr : Addr) : List Nat → Table → Option Table
  | [], T => some T
  | s :: rest, T => do
    let sym ← T.heap s
    let h := symbolHash sym.name
    let chain ← unlink s (T.hash h)
    removeChain addr rest { T with
      heap := Function.update T.heap s none
      hash := Function.update T.hash h chain
      names := Function.update T.names addr rest }

def removeSymbolAtAddr (T : Table) (addr : Addr) : Option Table :=
  removeChain addr (T.names addr) T

def squashSymbols (T : Table) (addrS addrE : Addr) : Option Table :=
  if addrS = addrE then some T
  else (removeSymbolAtAddr T addrS).bind fun T => squashSymbols T (addrS + 1) addrE
termination_by (addrE - addrS).toNat
decreasing_by bv_omega

inductive Op where
  | add (symbol : List Byte) (addr : Addr) (dupOk : Bool)
  | remove (addr : Addr)
  | squash (addrS addrE : Addr)

def step (T : Table) : Op → Option Table
  | .add symbol addr dupOk => (addSymbol T symbol addr dupOk).map (·.2)
  | .remove addr => removeSymbolAtAddr T addr
  | .squash addrS addrE => squashSymbols T addrS addrE

/-! What the table is for: the address each name was last given. -/

def spelling (symbol : List Byte) : List Byte := symbol.map tolower

/-- By the lower-case spelling. -/
abbrev Given := List Byte → Option Addr

namespace Given

def none : Given := fun _ => .none

def add (g : Given) (symbol : List Byte) (addr : Addr) (dupOk : Bool) : Given :=
  if (g (spelling symbol)).isNone ∨ dupOk then Function.update g (spelling symbol) (some addr)
    else g

def remove (g : Given) (gone : Addr → Bool) : Given := fun k => (g k).filter fun a => !gone a

/-- From the first address up to the second one, around the end of the memory. -/
def between (addrS addrE : Addr) (a : Addr) : Bool := (a - addrS).toNat < (addrE - addrS).toNat

def step (g : Given) : Op → Given
  | .add symbol addr dupOk => g.add symbol addr dupOk
  | .remove addr => g.remove (· == addr)
  | .squash addrS addrE => g.remove (between addrS addrE)

def after (ops : List Op) : Given := ops.foldl step none

end Given

/-- The symbols of the table are those that were given, each found once under its name and in
the chain of its address. -/
structure Consistent (g : Given) (T : Table) : Prop where
  unknown : ∀ name, g (spelling name) = none → findSymbol T name = some none
  found : ∀ name a, g (spelling name) = some a → ∃ p sym,
    findSymbol T name = some (some p) ∧ T.heap p = some sym ∧ spelling sym.name = spelling name ∧
      sym.addr = a ∧
    (T.hash (symbolHash name)).count p = 1
  single : ∀ p q s t, T.heap p = some s → T.heap q = some t →
    spelling s.name = spelling t.name → p = q
  known : ∀ p sym, T.heap p = some sym → g (spelling sym.name) = some sym.addr
  chain : ∀ a p, p ∈ T.names a ↔ ∃ sym, T.heap p = some sym ∧ sym.addr = a
  once : ∀ a, (T.names a).Nodup

/-- A symbol that is there is given no other address. -/
def Settled (g : Given) : Op → Prop
  | .add symbol addr dupOk => dupOk → ∀ a, g (spelling symbol) = some a → a = addr
  | .remove _ | .squash _ _ => True

/-- Both kinds of chains index the live symbols. -/
structure Threaded (T : Table) : Prop where
  bounded : ∀ p, T.fresh ≤ p → T.heap p = none
  single : ∀ p q s t, T.heap p = some s → T.heap q = some t →
    spelling s.name = spelling t.name → p = q
  byHash : Indexes T.heap (fun sym => symbolHash sym.name) T.hash
  byAddr : Indexes T.heap (fun sym => sym.addr) T.names

/-- The live symbols have the names and addresses that were given. -/
def Holds (g : Given) (T : Table) : Prop :=
  ∀ k a, g k = some a ↔ ∃ p sym, T.heap p = some sym ∧ spelling sym.name = k ∧ sym.addr = a

section
variable {T T' : Table} {g : Given} {name symbol : List Byte} {addr a : Addr} {p s : Nat}
  {sym : Symbol}

theorem sameName_spelling {a b : List Byte} : sameName a b ↔ spelling a = spelling b := sameName_iff

theorem hash_spelling {a b : List Byte} (same : spelling a = spelling b) :
    symbolHash a = symbolHash b :=
  symbolHash_same (sameName_spelling.mpr same)

theorem walk_none {chain : List Nat} (live : ∀ q ∈ chain, (T.heap q).isSome)
    (other : ∀ q t, T.heap q = some t → spelling t.name ≠ spelling symbol) :
      walk T symbol chain = some none := by
  induction chain with
  | nil => rfl
  | cons q rest ih =>
    obtain ⟨t, ht⟩ := Option.isSome_iff_exists.mp (live q (List.mem_cons_self ..))
    have differs : ¬ sameName symbol t.name :=
      fun same => other q t ht (sameName_spelling.mp same).symm
    simp only [walk, ht, Option.bind_eq_bind, Option.bind_some, if_neg differs]
    exact ih fun r mem => live r (List.mem_cons_of_mem _ mem)

theorem walk_some {chain : List Nat} (live : ∀ q ∈ chain, (T.heap q).isSome) (mem : p ∈ chain)
    (here : T.heap p = some sym) (same : spelling sym.name = spelling symbol)
    (single : ∀ q t, T.heap q = some t → spelling t.name = spelling symbol → q = p) :
    walk T symbol chain = some (some p) := by
  induction chain with
  | nil => cases mem
  | cons q rest ih =>
    obtain ⟨t, ht⟩ := Option.isSome_iff_exists.mp (live q (List.mem_cons_self ..))
    simp only [walk, ht, Option.bind_eq_bind, Option.bind_some]
    by_cases hit : sameName symbol t.name
    · rw [if_pos hit, single q t ht (sameName_spelling.mp hit).symm]
    · rw [if_neg hit]
      refine ih (fun r m => live r (List.mem_cons_of_mem _ m)) ?_
      rcases List.mem_cons.mp mem with rfl | later
      · cases Option.some.inj (ht.symm.trans here)
        exact absurd (sameName_spelling.mpr same.symm) hit
      · exact later

theorem unlink_eq_erase {chain : List Nat} (mem : s ∈ chain) :
    unlink s chain = some (chain.erase s) := by
  induction chain with
  | nil => cases mem
  | cons q rest ih =>
    rw [unlink]
    split
    · rename_i here
      rw [here, List.erase_cons_head]
    · rename_i other
      rw [ih ((List.mem_cons.mp mem).resolve_left (Ne.symm other)),
        List.erase_cons_tail (by simpa using other)]
      rfl

namespace Threaded

theorem empty : Threaded .empty where
  bounded _ _ := rfl
  single _ _ _ _ impossible := by cases impossible
  byHash := .empty
  byAddr := .empty

theorem find_none (threaded : Threaded T)
    (other : ∀ q t, T.heap q = some t → spelling t.name ≠ spelling symbol) :
    findSymbol T symbol = some none := walk_none threaded.byHash.live other

theorem find_some (threaded : Threaded T) (here : T.heap p = some sym)
    (same : spelling sym.name = spelling symbol) :
    findSymbol T symbol = some (some p) := by
  refine walk_some threaded.byHash.live
    ((threaded.byHash.mem _ p).mpr ⟨sym, here, hash_spelling same⟩) here same ?_
  intro q t ht other
  exact threaded.single q p t sym ht here (other.trans same.symm)

theorem consistent (threaded : Threaded T) (holds : Holds g T) : Consistent g T where
  unknown name absent := by
    refine threaded.find_none fun q t ht same => ?_
    rw [(holds _ _).mpr ⟨q, t, ht, same, rfl⟩] at absent
    cases absent
  found name a given := by
    obtain ⟨p, sym, here, same, rfl⟩ := (holds _ _).mp given
    have mem := (threaded.byHash.mem _ p).mpr ⟨sym, here, hash_spelling same⟩
    exact ⟨p, sym, threaded.find_some here same, here, same, rfl, List.count_eq_one_of_mem
      (threaded.byHash.once _) mem⟩
  single := threaded.single
  known p sym here := (holds _ _).mpr ⟨p, sym, here, rfl, rfl⟩
  chain := threaded.byAddr.mem
  once := threaded.byAddr.once

theorem insert (addr : Addr) (threaded : Threaded T)
    (other : ∀ q t, T.heap q = some t → spelling t.name ≠ spelling symbol) :
    Threaded {
      heap := Function.update T.heap T.fresh (some ⟨symbol, addr⟩)
      fresh := T.fresh + 1
      hash := Function.update T.hash (symbolHash symbol) (T.fresh :: T.hash (symbolHash symbol))
      names := Function.update T.names addr (T.fresh :: T.names addr) } where
  bounded p beyond := by
    have further : p ≠ T.fresh := Nat.ne_of_gt beyond
    exact (Function.update_of_ne further ..).trans (threaded.bounded p (Nat.le_of_succ_le beyond))
  single p q s t hp hq same := by
    simp only [Function.update_apply] at hp hq
    split at hp <;> split at hq
    · omega
    · cases hp
      exact absurd same.symm (other q t hq)
    · cases hq
      exact absurd same (other p s hp)
    · exact threaded.single p q s t hp hq same
  byHash := threaded.byHash.cons (threaded.bounded _ (Nat.le_refl _)) _
  byAddr := threaded.byAddr.cons (threaded.bounded _ (Nat.le_refl _)) _

theorem erase (threaded : Threaded T) (here : T.heap p = some sym) :
    Threaded { T with
      heap := Function.update T.heap p none
      hash := Function.update T.hash (symbolHash sym.name) ((T.hash (symbolHash sym.name)).erase p)
      names := Function.update T.names sym.addr ((T.names sym.addr).erase p) } where
  bounded q beyond := by
    by_cases gone : q = p
    · exact gone ▸ Function.update_self ..
    · exact (Function.update_of_ne gone ..).trans (threaded.bounded q beyond)
  single q r s t hq hr same := by
    simp only [Function.update_apply] at hq hr
    split at hq
    · cases hq
    · split at hr
      · cases hr
      · exact threaded.single q r s t hq hr same
  byHash := threaded.byHash.erase here
  byAddr := threaded.byAddr.erase here

theorem removeChain_spec {chain : List Nat} (threaded : Threaded T) (all : T.names addr = chain) :
    ∃ T', removeChain addr chain T = some T' ∧ Threaded T' ∧ ∀ p, T'.heap p = if p ∈ chain then none
      else T.heap p := by
  induction chain generalizing T with
  | nil => exact ⟨T, rfl, threaded, fun p => rfl⟩
  | cons s rest ih =>
    obtain ⟨sym, here, rfl⟩ := (threaded.byAddr.mem addr s).mp (all ▸ List.mem_cons_self ..)
    have hashed := (threaded.byHash.mem _ s).mpr ⟨sym, here, rfl⟩
    have cut := threaded.erase here
    rw [all, List.erase_cons_head] at cut
    obtain ⟨T', ran, after, left⟩ := ih cut (Function.update_self ..)
    refine ⟨T', ?_, after, fun p => ?_⟩
    · simp only [removeChain, here, unlink_eq_erase hashed, Option.bind_eq_bind, Option.bind_some]
      exact ran
    · rw [left]
      simp only [Function.update_apply, List.mem_cons]
      split <;> split <;> simp_all

theorem removeSymbolAtAddr_spec (threaded : Threaded T) (addr : Addr) :
    ∃ T', removeSymbolAtAddr T addr = some T' ∧
    Threaded T' ∧ ∀ p, T'.heap p = (T.heap p).filter fun sym => !(sym.addr == addr) := by
  have spec : ∃ T', removeChain addr (T.names addr) T = some T' ∧ Threaded T' ∧
      ∀ p, T'.heap p = if p ∈ T.names addr then none else T.heap p := threaded.removeChain_spec rfl
  obtain ⟨T', ran, after, left⟩ := spec
  refine ⟨T', ran, after, fun p => ?_⟩
  rw [left]
  cases here : T.heap p with
  | none => split <;> rfl
  | some sym =>
    have mem := threaded.byAddr.mem addr p
    simp only [here, Option.some.injEq, exists_eq_left'] at mem
    simp only [mem, Option.filter, Bool.not_eq_true', beq_eq_false_iff_ne, ne_eq, ite_not]

end Threaded

theorem between_succ {addrS addrE : Addr} (more : addrS ≠ addrE) (a : Addr) :
    Given.between addrS addrE a = (a == addrS || Given.between (addrS + 1) addrE a) := by
  rw [Bool.eq_iff_iff]
  simp only [Given.between, decide_eq_true_eq, Bool.or_eq_true, beq_iff_eq]
  bv_omega

theorem Threaded.squashSymbols_spec (threaded : Threaded T) (addrS addrE : Addr) :
    ∃ T', squashSymbols T addrS addrE = some T' ∧
      Threaded T' ∧ ∀ p, T'.heap p = (T.heap p).filter fun sym =>
        !Given.between addrS addrE sym.addr := by
  induction T, addrS using squashSymbols.induct addrE with
  | case1 T =>
    refine ⟨T, by rw [squashSymbols, if_pos rfl], threaded, fun p => ?_⟩
    cases T.heap p with
    | none => rfl
    | some sym => simp [Given.between, Option.filter]
  | case2 T addrS more ih =>
    obtain ⟨T₁, ran, middle, left⟩ := threaded.removeSymbolAtAddr_spec addrS
    obtain ⟨T', rest, after, further⟩ := ih T₁ middle
    refine ⟨T', by rw [squashSymbols, if_neg more, ran, Option.bind_some, rest], after, fun p => ?_⟩
    rw [further, left, Option.filter_filter]
    simp only [between_succ more, Bool.not_or]

theorem Holds.remove {gone : Addr → Bool} (holds : Holds g T)
    (left : ∀ p, T'.heap p = (T.heap p).filter fun sym => !gone sym.addr) :
      Holds (g.remove gone) T' := by
  intro k a
  simp only [Given.remove, Option.filter_eq_some_iff, holds k a, left]
  constructor
  · rintro ⟨⟨p, sym, here, same, rfl⟩, kept⟩
    exact ⟨p, sym, ⟨here, kept⟩, same, rfl⟩
  · rintro ⟨p, sym, ⟨here, kept⟩, same, rfl⟩
    exact ⟨⟨p, sym, here, same, rfl⟩, kept⟩

theorem Holds.none_iff (holds : Holds g T) :
    g (spelling symbol) = none ↔ ∀ q t, T.heap q = some t → spelling t.name ≠ spelling symbol := by
  constructor
  · intro absent q t here same
    rw [(holds _ _).mpr ⟨q, t, here, same, rfl⟩] at absent
    cases absent
  · intro other
    rw [Option.eq_none_iff_forall_ne_some]
    intro a given
    obtain ⟨q, t, here, same, -⟩ := (holds _ _).mp given
    exact other q t here same

theorem Holds.insert {T' : Table} (holds : Holds g T) (free : T.heap p = none)
    (absent : g (spelling symbol) = none)
    (heap : T'.heap = Function.update T.heap p (some ⟨symbol, addr⟩)) :
    Holds (Function.update g (spelling symbol) (some addr)) T' := by
  intro k a
  have other := holds.none_iff.mp absent
  have old := holds k a
  simp only [heap, Function.update_apply]
  split
  · rename_i new
    subst new
    constructor
    · intro same
      exact ⟨p, ⟨symbol, addr⟩, if_pos rfl, rfl, Option.some.inj same⟩
    · rintro ⟨q, t, here, same, rfl⟩
      split at here
      · cases here
        rfl
      · exact absurd same (other q t here)
  · rename_i differs
    rw [old]
    constructor
    · rintro ⟨q, t, here, same, rfl⟩
      have live : q ≠ p := by
        rintro rfl
        rw [free] at here
        cases here
      exact ⟨q, t, by rwa [if_neg live], same, rfl⟩
    · rintro ⟨q, t, here, same, rfl⟩
      split at here
      · cases here
        exact absurd same.symm differs
      · exact ⟨q, t, here, same, rfl⟩

theorem addSymbol_found (found : findSymbol T symbol = some (some p)) (here : T.heap p = some sym) :
    addSymbol T symbol addr true =
      some (0, { T with heap := Function.update T.heap p (some { sym with addr := addr }) }) := by
  simp only [addSymbol, found, here, Option.bind_eq_bind, Option.bind_some, Bool.not_true,
    Bool.false_eq_true, if_false]

theorem step_settled (threaded : Threaded T) (holds : Holds g T) {op : Op}
    (settled : Settled g op) :
    ∃ T', step T op = some T' ∧ Threaded T' ∧ Holds (g.step op) T' := by
  cases op with
  | remove addr =>
    obtain ⟨T', ran, after, left⟩ := threaded.removeSymbolAtAddr_spec addr
    exact ⟨T', ran, after, holds.remove left⟩
  | squash addrS addrE =>
    obtain ⟨T', ran, after, left⟩ := threaded.squashSymbols_spec addrS addrE
    exact ⟨T', ran, after, holds.remove left⟩
  | add symbol addr dupOk =>
    cases given : g (spelling symbol) with
    | none =>
      have other := holds.none_iff.mp given
      refine ⟨_, ?_, threaded.insert addr other, ?_⟩
      · simp only [step, addSymbol, threaded.find_none other, Option.bind_eq_bind, Option.bind_some,
          Option.map_some]
      · rw [Given.step, Given.add, if_pos (.inl (by rw [given]; rfl))]
        exact holds.insert (threaded.bounded _ (Nat.le_refl _)) given rfl
    | some a =>
      obtain ⟨p, sym, here, same, rfl⟩ := (holds _ _).mp given
      have found := threaded.find_some here same
      have stays : g.step (.add symbol addr dupOk) = g := by
        rw [Given.step, Given.add]
        split
        · rename_i open_
          have again := settled (open_.resolve_left (by simp [given])) _ given
          exact again ▸ given ▸ Function.update_eq_self ..
        · rfl
      refine ⟨T, ?_, threaded, stays.symm ▸ holds⟩
      cases dupOk with
      | false => simp only [step, addSymbol, found]; rfl
      | true =>
        have again : Function.update T.heap p (some { sym with addr := addr }) = T.heap := by
          rw [← settled rfl _ given, ← here, Function.update_eq_self]
        rw [step, addSymbol_found found here, Option.map_some, again]

theorem step_unsettled (consistent : Consistent g T) {op : Op} (unsettled : ¬ Settled g op) :
    ∃ T', step T op = some T' ∧ ¬ Consistent (g.step op) T' := by
  cases op with
  | remove addr => exact absurd trivial unsettled
  | squash addrS addrE => exact absurd trivial unsettled
  | add symbol addr dupOk =>
    simp only [Settled, not_forall] at unsettled
    obtain ⟨dup, a, given, differs⟩ := unsettled
    obtain rfl : dupOk = true := dup
    obtain ⟨p, sym, found, here, -, rfl, -⟩ := consistent.found symbol a given
    refine ⟨{ T with heap := Function.update T.heap p (some { sym with addr := addr }) }, ?_,
      fun moved => ?_⟩
    · rw [step, addSymbol_found found here, Option.map_some]
    · have chained := (consistent.chain sym.addr p).mpr ⟨sym, here, rfl⟩
      obtain ⟨t, now, old⟩ := (moved.chain sym.addr p).mp chained
      obtain rfl : { sym with addr := addr } = t :=
        Option.some.inj ((Function.update_self p _ T.heap).symm.trans now)
      exact differs old.symm

theorem run_settled {ops : List Op}
    (settled : ∀ n op, ops[n]? = some op → Settled (Given.after (ops.take n)) op) :
    ∃ T, Runs.run step .empty ops = some T ∧ Threaded T ∧ Holds (Given.after ops) T := by
  induction ops using List.reverseRecOn with
  | nil => exact ⟨_, rfl, .empty, by simp [Holds, Given.after, Given.none, Table.empty]⟩
  | append_singleton ops op ih =>
    obtain ⟨T, ran, threaded, holds⟩ := ih fun n op' at_n => by
      have inside : n < ops.length := (List.getElem?_eq_some_iff.mp at_n).1
      have before := settled n op' (by rw [List.getElem?_append_left inside, at_n])
      rwa [List.take_append_of_le_length inside.le] at before
    have last := settled ops.length op (by simp)
    rw [List.take_left] at last
    obtain ⟨T', stepped, after⟩ := step_settled threaded holds last
    refine ⟨T', ?_, ?_⟩
    · rw [Runs.run_append, ran, Option.bind_some, Runs.run_cons, stepped]
      rfl
    · rwa [Given.after, List.foldl_append]

end

/-- The table is consistent in every state of a run if and only if no symbol that is there is
given another address. -/
theorem consistent_iff (ops : List Op) :
    (∀ n, ∃ T, Runs.run step .empty (ops.take n) = some T ∧
      Consistent (Given.after (ops.take n)) T) ↔
      ∀ n op, ops[n]? = some op → Settled (Given.after (ops.take n)) op := by
  constructor
  · intro consistent n op at_n
    by_contra unsettled
    obtain ⟨T, ran, before⟩ := consistent n
    obtain ⟨T', stepped, broken⟩ := step_unsettled before unsettled
    obtain ⟨T'', again, after⟩ := consistent (n + 1)
    rw [List.take_add_one, at_n, Option.toList_some] at again after
    rw [Runs.run_append, ran, Option.bind_some, Runs.run_cons, stepped, Option.bind_some,
      Runs.run_nil] at again
    cases again
    rw [Given.after, List.foldl_append] at after
    exact broken after
  · intro settled n
    have upTo : ∀ m op, (ops.take n)[m]? = some op →
      Settled (Given.after ((ops.take n).take m)) op := by
      intro m op at_m
      rw [List.getElem?_take] at at_m
      split at at_m
      · rename_i inside
        rw [List.take_take, Nat.min_eq_left (Nat.le_of_lt inside)]
        exact settled m op at_m
      · cases at_m
    obtain ⟨T, ran, threaded, holds⟩ := run_settled upTo
    exact ⟨T, ran, threaded.consistent holds⟩

theorem moved_symbol_lost : ¬ ∀ ops, ∃ T, Runs.run step .empty ops = some T ∧
    Consistent (Given.after ops) T := by
  intro always
  obtain ⟨T, ran, consistent⟩ := always [.add [65] 1 true, .add [65] 2 true]
  cases ran
  obtain ⟨sym, here, old⟩ := (consistent.chain 1 0).mp (List.mem_cons_self ..)
  cases here
  exact absurd old (by decide)

end LC3Tools.Sim.Symbols
