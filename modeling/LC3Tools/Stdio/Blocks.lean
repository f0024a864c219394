import LC3Tools.Stdio.Routine
import LC3Tools.WordArray

/-! The source of a routine, its image in memory, and the pieces that run straight. -/
namespace LC3Tools.Stdio
open Emit StateTransition

/-- A label, an instruction, or one of the directives for data. -/
inductive Item (L : Type) where
  | label (l : L)
  | inst (i : Inst L)
  | fill (v : Int)
  | blkw (n : Nat)
  deriving DecidableEq

inductive Cell (L : Type) where
  | inst (i : Inst L)
  | word (w : Word)
  deriving DecidableEq

section
variable {L : Type} [DecidableEq L]

def Item.cells : Item L → List (Cell L)
  | .label _ => []
  | .inst i => [.inst i]
  | .fill v => [.word (BitVec.ofInt 16 v)]
  | .blkw n => List.replicate n (.word 0)

def cells (items : List (Item L)) : List (Cell L) := items.flatMap Item.cells

/-- How many words stand in front of a label. -/
def index : List (Item L) → L → Nat
  | [], _ => 0
  | item :: items, l => if item = .label l then 0 else item.cells.length + index items l

/-- The word that is assembled at an index. -/
def image (items : List (Item L)) (k : Nat) : Option Word :=
  (cells items)[k]?.bind fun
    | .inst i => (i.map fun l => (index items l : Int) - (k + 1)).code.map (BitVec.ofNat 16)
    | .word w => some w

end

/-- A routine with the words among its data that it writes. Every operand reaches its label. -/
structure Routine (L : Type) [DecidableEq L] where
  items : List (Item L)
  scratch : Nat → Bool
  reaches : ∀ k < (cells items).length, (image items k).isSome
  data : ∀ k < (cells items).length, scratch k → ∃ w, (cells items)[k]? = some (.word w)

/-- An instruction that only writes a register. -/
def Inst.plain {T : Type} : Inst T → Bool
  | .str .. | .br .. | .trap _ | .ret => false
  | _ => true

def Inst.dest {T : Type} : Inst T → List (Fin 8)
  | .add i .. | .addImm i .. | .and i .. | .andImm i .. | .not i _ | .ldr i .. | .ld i _
    | .lea i _ => [i]
  | .str .. | .br .. | .trap _ | .ret => []

def run {T : Type} (address : T → Word) (piece : List (Inst T)) (m : Machine) : Machine :=
  piece.foldl (fun m i => i.act address m) m

/-- All but the program counter, the condition code and some registers is as it was. -/
structure Kept (rs : List (Fin 8)) (s t : State) : Prop where
  reg : ∀ i ∉ rs, t.machine.reg i = s.machine.reg i
  mem : t.machine.mem = s.machine.mem
  input : t.input = s.input
  output : t.output = s.output

theorem Kept.refl (s : State) : Kept [] s s := ⟨fun _ _ => rfl, rfl, rfl, rfl⟩

theorem Kept.mono {rs rs' : List (Fin 8)} {s t : State} (kept : Kept rs s t) (more : rs ⊆ rs') :
    Kept rs' s t :=
  ⟨fun i away => kept.reg i fun mem => away (more mem), kept.mem, kept.input, kept.output⟩

theorem Kept.jump {rs : List (Fin 8)} {s t : State} (kept : Kept rs s t) (a : Word) :
    Kept rs s { t with pc := a } :=
  ⟨kept.reg, kept.mem, kept.input, kept.output⟩

theorem Kept.trans {rs : List (Fin 8)} {s t u : State} (first : Kept rs s t)
    (second : Kept rs t u) :
    Kept rs s u :=
  ⟨fun i away => (second.reg i away).trans (first.reg i away), second.mem.trans first.mem,
    second.input.trans first.input, second.output.trans first.output⟩

/-- Some words of the memory are other ones as well. -/
structure Within (rs : List (Fin 8)) (ws : Word → Prop) (s t : State) : Prop where
  reg : ∀ i ∉ rs, t.machine.reg i = s.machine.reg i
  mem : ∀ a, ¬ ws a → t.machine.mem a = s.machine.mem a
  input : t.input = s.input
  output : t.output = s.output

theorem Kept.within {rs : List (Fin 8)} {s t : State} (kept : Kept rs s t) (ws : Word → Prop) :
    Within rs ws s t :=
  ⟨kept.reg, fun _ _ => by rw [kept.mem], kept.input, kept.output⟩

theorem Within.mono {rs rs' : List (Fin 8)} {ws : Word → Prop} {s t : State}
    (within : Within rs ws s t)
    (more : rs ⊆ rs') : Within rs' ws s t :=
  ⟨fun i away => within.reg i fun mem => away (more mem), within.mem, within.input, within.output⟩

theorem Within.trans {rs : List (Fin 8)} {ws : Word → Prop} {s t u : State}
    (first : Within rs ws s t)
    (second : Within rs ws t u) : Within rs ws s u :=
  ⟨fun i away => (second.reg i away).trans (first.reg i away),
    fun a away => (second.mem a away).trans (first.mem a away),
    second.input.trans first.input, second.output.trans first.output⟩

/-- One step, in which no other words are written. -/
def Steps (os : Os) (ws : Word → Prop) (s t : State) : Prop :=
  step os s = some t ∧ ∀ a, ¬ ws a → t.machine.mem a = s.machine.mem a

/-- A run in which no other words are written at any time. -/
def Path (os : Os) (ws : Word → Prop) : State → State → Prop := Relation.ReflTransGen (Steps os ws)

theorem Path.trans {os : Os} {ws : Word → Prop} {s t u : State} (first : Path os ws s t)
    (second : Path os ws t u) :
    Path os ws s u :=
  Relation.ReflTransGen.trans first second

theorem Path.mono {os : Os} {ws ws' : Word → Prop} {s t : State} (path : Path os ws s t)
    (more : ∀ a, ws a → ws' a) : Path os ws' s t := by
  have each : Steps os ws ≤ Steps os ws' := fun _ _ steps =>
    ⟨steps.1, fun a away => steps.2 a fun inside => away (more a inside)⟩
  exact Relation.ReflTransGen.mono each s t path

theorem Path.mem {os : Os} {ws : Word → Prop} {s t : State} (path : Path os ws s t) (a : Word)
    (away : ¬ ws a) :
    t.machine.mem a = s.machine.mem a := by
  induction path with
  | refl => rfl
  | tail _ steps ih => exact (steps.2 a away).trans ih

theorem Path.reaches {os : Os} {ws : Word → Prop} {s t : State} (path : Path os ws s t) :
    Reaches (step os) s t := by
  have each : Steps os ws ≤ fun a b => b ∈ step os a := fun _ _ steps => steps.1
  exact Relation.ReflTransGen.mono each s t path

theorem reaches_final {os : Os} {s t u : State} (reaches : Reaches (step os) s t)
    (final : step os t = none)
    (other : Reaches (step os) s u) : Reaches (step os) u t := by
  rcases reaches_total reaches other with later | earlier
  · rcases later.cases_head with same | ⟨v, stepped, -⟩
    · exact same ▸ .refl
    · cases final.symm.trans stepped
  · exact earlier

theorem Path.every {os : Os} {ws : Word → Prop} {s t u : State} (path : Path os ws s t)
    (final : step os t = none)
    (reaches : Reaches (step os) s u) : Path os ws s u := by
  induction reaches with
  | refl => exact .refl
  | @tail v w _ stepped ih =>
    have unique : Relator.RightUnique (Steps os ws) :=
      fun a b c first second => Option.mem_unique first.1 second.1
    have rest : Path os ws v t := by
      rcases Relation.ReflTransGen.total_of_right_unique unique ih path with rest | behind
      · exact rest
      · rcases behind.cases_head with same | ⟨x, steps, -⟩
        · exact same ▸ .refl
        · cases final.symm.trans steps.1
    rcases rest.cases_head with same | ⟨x, steps, -⟩
    · subst same
      cases final.symm.trans stepped
    · cases Option.mem_unique steps.1 stepped
      exact ih.tail steps

theorem input_suffix {os : Os} {s t : State} (reaches : Reaches (step os) s t) :
    t.input <:+ s.input := by
  induction reaches with
  | refl => exact List.suffix_refl _
  | tail _ stepped ih =>
    refine List.IsSuffix.trans ?_ ih
    obtain ⟨i, -, effect⟩ := Option.bind_eq_some_iff.mp stepped
    cases i with
    | trap service =>
      cases service with
      | getc =>
        simp only [Inst.effect, Service.effect] at effect
        split at effect
        · cases effect
        · rename_i c rest input
          cases effect
          exact input ▸ List.suffix_cons c rest
      | out =>
        cases effect
        exact List.suffix_refl _
      | puts =>
        obtain ⟨text, -, same⟩ := Option.map_eq_some_iff.mp effect
        cases same
        exact List.suffix_refl _
    | _ =>
      cases effect
      exact List.suffix_refl _

section
variable {T : Type} {address : T → Word} {m : Machine}

@[simp] theorem run_nil : run address [] m = m := rfl

@[simp] theorem run_cons (i : Inst T) (piece : List (Inst T)) :
    run address (i :: piece) m = run address piece (i.act address m) := rfl

theorem act_mem {i : Inst T} (plain : i.plain) : (i.act address m).mem = m.mem := by
  cases i with
  | str | br | trap | ret => cases plain
  | _ => rfl

theorem act_reg (i : Inst T) {j : Fin 8} (away : j ∉ i.dest) :
    (i.act address m).reg j = m.reg j := by
  cases i with
  | str | br | trap | ret => rfl
  | _ => exact if_neg fun same => away (List.mem_singleton.mpr same)

theorem run_mem {piece : List (Inst T)} (plain : piece.all Inst.plain) :
    (run address piece m).mem = m.mem := by
  induction piece generalizing m with
  | nil => rfl
  | cons i piece ih =>
    rw [List.all_cons, Bool.and_eq_true] at plain
    rw [run_cons, ih plain.2, act_mem plain.1]

theorem run_reg (piece : List (Inst T)) {j : Fin 8} (away : j ∉ piece.flatMap Inst.dest) :
    (run address piece m).reg j = m.reg j := by
  induction piece generalizing m with
  | nil => rfl
  | cons i piece ih =>
    rw [List.flatMap_cons, List.mem_append, not_or] at away
    rw [run_cons, ih away.2, act_reg i away.1]

theorem effect_map {U : Type} (os : Os) (f : T → U) (address : U → Word) (s : State) (i : Inst T) :
    (i.map f).effect os address s = i.effect os (address ∘ f) s := by
  cases i <;> rfl

theorem effect_plain {os : Os} {s : State} {i : Inst T} (plain : i.plain) :
    i.effect os address s = some { s with machine := i.act address s.machine, pc := s.pc + 1 } := by
  cases i with
  | br | trap | ret => cases plain
  | _ => rfl

theorem next_address (base : Word) (k : Nat) :
    base + BitVec.ofNat 16 k + 1 = base + BitVec.ofNat 16 (k + 1) := by
  rw [BitVec.ofNat_add, BitVec.add_assoc]
  rfl

theorem offset_inj {base : Word} {k n : Nat} (small : k < 2 ^ 16) (small' : n < 2 ^ 16)
    (same : base + BitVec.ofNat 16 k = base + BitVec.ofNat 16 n) : k = n := by
  have offsets := congrArg (fun a => (a - base).toNat) same
  simpa only [offset_from small, offset_from small'] using offsets

theorem sub_msb {x b : Nat} (small : x ≤ 0x8000) (positive : 0 < b) (narrow : b ≤ 0x7fff) :
    (BitVec.ofNat 16 x - BitVec.ofNat 16 b).msb = decide (x < b) := by
  rw [BitVec.msb_eq_decide, BitVec.toNat_sub, BitVec.toNat_ofNat, BitVec.toNat_ofNat]
  apply decide_eq_decide.mpr
  omega

theorem ofNat_sub {x b : Nat} (less : b ≤ x) :
    BitVec.ofNat 16 x - BitVec.ofNat 16 b = BitVec.ofNat 16 (x - b) := by
  obtain ⟨d, rfl⟩ := Nat.exists_eq_add_of_le less
  rw [BitVec.ofNat_add, Nat.add_sub_cancel_left, BitVec.add_comm, BitVec.add_sub_cancel]

theorem operand_address (base : Word) (k n : Nat) :
    base + BitVec.ofNat 16 k + 1 + BitVec.ofInt 16 ((n : Int) - (k + 1)) =
      base + BitVec.ofNat 16 n := by
  have whole : ((k + 1 : Nat) : Int) + ((n : Int) - (k + 1)) = (n : Int) := by omega
  rw [next_address, BitVec.add_assoc, ← BitVec.ofInt_natCast 16 (k + 1), ← BitVec.ofInt_add, whole,
    BitVec.ofInt_natCast]

theorem code_lt {i : Inst Int} {n : Nat} (coded : i.code = some n) : n < 2 ^ 16 := by
  have decoded := decode_code coded
  unfold decode at decoded
  split at decoded <;> first | omega | cases decoded

end

namespace Routine
variable {L : Type} [DecidableEq L] (r : Routine L)

/-- Where a label stands when the routine stands at an address. -/
def address (base : Word) (l : L) : Word := base + BitVec.ofNat 16 (index r.items l)

/-- So many words behind a label. -/
def place (base : Word) (l : L) (n : Nat) : Word := base + BitVec.ofNat 16 (index r.items l + n)

/-- The routine stands in memory. What its own words hold does not matter. -/
def Loaded (base : Word) (mem : Word → Word) : Prop :=
  ∀ k w, image r.items k = some w → r.scratch k = false → mem (base + BitVec.ofNat 16 k) = w

theorem place_eq {base : Word} {l l' : L} {n n' : Nat}
    (same : index r.items l + n = index r.items l' + n') :
    r.place base l n = r.place base l' n' := by
  rw [place, same, place]

variable {r} {os : Os} {ws : Word → Prop} {base : Word} {s : State} {k : Nat}

/-- The memory with the routine in it. -/
def load (r : Routine L) (base : Word) (mem : Word → Word) (a : Word) : Word :=
  (image r.items (a - base).toNat).getD (mem a)

theorem load_loaded {mem : Word → Word} (small : (cells r.items).length ≤ 2 ^ 16) :
    r.Loaded base (r.load base mem) := by
  intro k w there _
  have inside : k < (cells r.items).length := by
    by_contra outside
    rw [image, List.getElem?_eq_none (Nat.le_of_not_lt outside)] at there
    cases there
  rw [load, offset_from (Nat.lt_of_lt_of_le inside small), there, Option.getD_some]

theorem Loaded.write {mem : Word → Word} (loaded : r.Loaded base mem) {a v : Word}
    (away : ∀ k < (cells r.items).length, r.scratch k = false → base + BitVec.ofNat 16 k ≠ a) :
    r.Loaded base fun b => if b = a then v else mem b := by
  intro k w there fixed
  have inside : k < (cells r.items).length := by
    by_contra outside
    rw [image, List.getElem?_eq_none (Nat.le_of_not_lt outside)] at there
    cases there
  exact (if_neg (away k inside fixed)).trans (loaded k w there fixed)

variable (os) in
/-- One instruction of the source. -/
theorem step_at (loaded : r.Loaded base s.machine.mem) (here : s.pc = base + BitVec.ofNat 16 k)
    {i : Inst L}
    (there : (cells r.items)[k]? = some (.inst i)) :
      step os s = i.effect os (r.address base) s := by
  have inside : k < (cells r.items).length := (List.getElem?_eq_some_iff.mp there).1
  have fixed : r.scratch k = false := by
    cases scratch : r.scratch k with
    | false => rfl
    | true =>
      obtain ⟨w, word⟩ := r.data k inside scratch
      cases there.symm.trans word
  obtain ⟨w, word⟩ := Option.isSome_iff_exists.mp (r.reaches k inside)
  have fetched := loaded k w word fixed
  rw [image, there] at word
  obtain ⟨n, coded, rfl⟩ := Option.map_eq_some_iff.mp word
  rw [step, here, fetched, BitVec.toNat_ofNat, Nat.mod_eq_of_lt (code_lt coded), decode_code coded,
    Option.bind_some, effect_map]
  congr 1
  funext l
  exact operand_address base k (index r.items l)

/-- A straight piece of the source. -/
theorem reaches_piece (loaded : r.Loaded base s.machine.mem)
    (here : s.pc = base + BitVec.ofNat 16 k)
    (piece : List (Inst L)) (there : piece.map .inst <+: (cells r.items).drop k)
    (plain : piece.all Inst.plain) :
    Path os ws s { s with
      machine := run (r.address base) piece s.machine
      pc := base + BitVec.ofNat 16 (k + piece.length) } := by
  induction piece generalizing k s with
  | nil =>
    have same : s = { s with pc := base + BitVec.ofNat 16 k } := by rw [← here]
    exact same ▸ .refl
  | cons i piece ih =>
    obtain ⟨behind, split⟩ := there
    rw [List.all_cons, Bool.and_eq_true] at plain
    have first : (cells r.items)[k]? = some (.inst i) := by
      have head := congrArg List.head? split
      rw [List.map_cons, List.cons_append, List.head?_cons, List.head?_drop] at head
      exact head.symm
    have rest : piece.map .inst <+: (cells r.items).drop (k + 1) := by
      refine ⟨behind, ?_⟩
      rw [← List.drop_drop, ← split, List.map_cons, List.cons_append, List.drop_one, List.tail_cons]
    have stepped : step os s = some { s with
        machine := i.act (r.address base) s.machine
        pc := base + BitVec.ofNat 16 (k + 1) } := by
      rw [step_at os loaded here first, effect_plain plain.1, here, next_address]
    have next := ih (s := { s with
        machine := i.act (r.address base) s.machine
        pc := base + BitVec.ofNat 16 (k + 1) })
          (by rw [act_mem plain.1]; exact loaded) rfl rest plain.2
    rw [Nat.add_assoc, Nat.add_comm 1] at next
    exact .head ⟨stepped, fun _ _ => by rw [act_mem plain.1]⟩ next

variable (os ws) in
theorem piece {start : L} {n : Nat} (loaded : r.Loaded base s.machine.mem)
    (here : s.pc = r.place base start n)
    (piece : List (Inst L))
      (there : piece.map .inst <+: (cells r.items).drop (index r.items start + n))
    (plain : piece.all Inst.plain) :
    ∃ t, Path os ws s t ∧ t.pc = r.place base start (n + piece.length) ∧
      t.machine = run (r.address base) piece s.machine ∧ Kept (piece.flatMap Inst.dest) s t :=
  ⟨_, reaches_piece loaded here piece there plain, congrArg (base + BitVec.ofNat 16 ·)
    (Nat.add_assoc ..), rfl,
    ⟨fun _ away => run_reg piece away, run_mem plain, rfl, rfl⟩⟩

variable (os ws) in
theorem branch {start : L} {n : Nat} (loaded : r.Loaded base s.machine.mem)
    (here : s.pc = r.place base start n)
    (piece : List (Inst L)) (neg zero pos : Bool) (l : L)
    (there : (piece ++ [Inst.br neg zero pos l]).map .inst <+: (cells r.items).drop
      (index r.items start + n))
    (plain : piece.all Inst.plain) :
    ∃ t, Path os ws s t ∧ t.pc = (if (run (r.address base) piece s.machine).takes neg zero pos
        then r.place base l 0 else r.place base start (n + piece.length + 1)) ∧
      t.machine = run (r.address base) piece s.machine ∧ Kept (piece.flatMap Inst.dest) s t := by
  obtain ⟨behind, split⟩ := there
  rw [List.map_append, List.append_assoc] at split
  obtain ⟨t, reaches, pc, machine, kept⟩ := Routine.piece os ws loaded here piece ⟨_, split⟩ plain
  have last : (cells r.items)[index r.items start + (n + piece.length)]? = some
    (.inst (.br neg zero pos l)) := by
    rw [← Nat.add_assoc, ← List.getElem?_drop, ← split, List.getElem?_append_right (by simp)]
    simp
  have stepped := step_at os (kept.mem ▸ loaded) pc last
  refine ⟨_, reaches.tail ⟨stepped, fun _ _ => rfl⟩, ?_, machine, kept.jump _⟩
  rw [← machine]
  simp only [pc, place, next_address]
  rfl

variable (os ws) in
theorem store {start : L} {n : Nat} (loaded : r.Loaded base s.machine.mem)
    (here : s.pc = r.place base start n)
    (piece : List (Inst L)) (i j : Fin 8) (v : Int)
    (there : (piece ++ [Inst.str i j v]).map .inst <+: (cells r.items).drop
      (index r.items start + n))
    (plain : piece.all Inst.plain)
    (inside : ws ((run (r.address base) piece s.machine).reg j + BitVec.ofInt 16 v)) :
    ∃ t, Path os ws s t ∧ t.pc = r.place base start (n + piece.length + 1) ∧
      t.machine = run (r.address base) (piece ++ [.str i j v]) s.machine ∧
      t.input = s.input ∧ t.output = s.output := by
  obtain ⟨behind, split⟩ := there
  rw [List.map_append, List.append_assoc] at split
  obtain ⟨t, reaches, pc, machine, kept⟩ := Routine.piece os ws loaded here piece ⟨_, split⟩ plain
  have last : (cells r.items)[index r.items start + (n + piece.length)]? = some
    (.inst (.str i j v)) := by
    rw [← Nat.add_assoc, ← List.getElem?_drop, ← split, List.getElem?_append_right (by simp)]
    simp
  have stepped := step_at os (kept.mem ▸ loaded) pc last
  have only (a : Word) (away : ¬ ws a) : (t.machine.write (t.machine.reg j + BitVec.ofInt 16 v)
      (t.machine.reg i)).mem a = t.machine.mem a :=
    if_neg fun same => away (by rw [same, machine]; exact inside)
  refine ⟨_, reaches.tail ⟨stepped, only⟩, ?_, ?_, kept.input, kept.output⟩
  · simp only [pc, place, next_address]
    rfl
  · simp only [machine, run, List.foldl_append]
    rfl

variable (os ws) in
theorem called {start : L} {n : Nat} (loaded : r.Loaded base s.machine.mem)
    (here : s.pc = r.place base start n)
    (service : Service) (there : (cells r.items)[index r.items start + n]? = some
      (.inst (.trap service)))
    {r0 : Word} {input output : List Byte}
    (effect : service.effect os s = some (s.back os r0 input output)) :
    ∃ t, Path os ws s t ∧ t.pc = r.place base start (n + 1) ∧ t.machine.reg 0 = r0 ∧
      (∀ i ∉ [0, 7], t.machine.reg i = s.machine.reg i) ∧ t.machine.mem = s.machine.mem ∧
      t.input = input ∧ t.output = output := by
  have stepped := step_at os loaded here there
  refine ⟨_, .single ⟨stepped.trans effect, fun _ _ => rfl⟩, ?_, rfl, ?_, rfl, rfl, rfl⟩
  · rw [State.back, here, place, next_address]
    rfl
  · intro i away
    have zero : i ≠ 0 := fun same => away (by simp [same])
    have seven : i ≠ 7 := fun same => away (by simp [same])
    simp only [State.back, if_neg zero, if_neg seven]

end Routine

end LC3Tools.Stdio
