import LC3Tools.Runs
import Mathlib.Logic.Function.Basic
import Mathlib.Data.List.Basic

/-! The arenas of `alloc.c`. Addresses are numbers; what `malloc` returns comes with the request. -/
namespace LC3Tools.Arena

/-- The sizes of the unions `align` and `header`. -/
structure Sizes where
  align : Nat
  header : Nat
  positive : 0 < align

def roundup (x n : Nat) : Nat := (x + (n - 1)) / n * n

structure Block where
  base : Nat
  limit : Nat
  avail : Nat

/-- The blocks of an arena are the newest first. Behind them there is `first[a]`, which has no room.
The blocks of `freeblocks` are in the order in which they are taken. -/
structure Arenas where
  chain : Fin 3 → List Block
  freeblocks : List Block

/-- The difference is compared as an unsigned number: one below 0 is large. -/
def room (n : Nat) : List Block → Bool
  | [] => false
  | ap :: _ => n ≤ ap.limit - ap.avail ∨ ap.limit < ap.avail

def Block.reset (z : Sizes) (b : Block) : Block := { b with avail := b.base + z.header }

/-- What is asked of `malloc`, as an unsigned of 32 bits. -/
def mallocSize (z : Sizes) (n : Nat) : Nat :=
  (z.header + n + roundup (10 * 1024) z.align) % 0x100000000

def malloced (z : Sizes) (n fresh : Nat) : Block :=
  ⟨fresh, fresh + mallocSize z n, fresh + z.header⟩

/-- The blocks of `freeblocks` are tried one after the other, and stay in the arena. -/
def fit (z : Sizes) (n : Nat) (a : Fin 3) (chain : Fin 3 → List Block) : List Block → Arenas
  | [] => ⟨chain, []⟩
  | f :: fs =>
    if room n (chain a) then ⟨chain, f :: fs⟩
    else fit z n a (Function.update chain a (f.reset z :: chain a)) fs

/-- The arena when its newest block is to have room. -/
def prepare (z : Sizes) (n : Nat) (a : Fin 3) (fresh : Nat) (s : Arenas) : Arenas :=
  let fitted := fit z n a s.chain s.freeblocks
  if room n (fitted.chain a) then fitted
  else ⟨Function.update fitted.chain a (malloced z n fresh :: fitted.chain a), fitted.freeblocks⟩

/-- Nothing is returned where the assertion fails, or where the block from `malloc` has no room: the
loop then asks for another one. -/
def allocate (z : Sizes) (size : Nat) (a : Fin 3) (fresh : Nat) (s : Arenas) :
    Option (Nat × Arenas) :=
  if 0 < size then
    let n := roundup size z.align
    let s := prepare z n a fresh s
    match s.chain a with
    | [] => none
    | ap :: rest =>
      if room n (ap :: rest) then
        some (ap.avail, ⟨Function.update s.chain a ({ ap with avail := ap.avail + n } :: rest),
          s.freeblocks⟩)
      else none
  else none

def deallocate (a : Fin 3) (s : Arenas) : Arenas :=
  ⟨Function.update s.chain a [], (s.chain a).reverse ++ s.freeblocks⟩

def Apart (x y : Block) : Prop := x.limit ≤ y.base ∨ y.limit ≤ x.base

/-- No two blocks overlap, whosever they are. -/
structure Good (z : Sizes) (s : Arenas) : Prop where
  own : ∀ a, (s.chain a ++ s.freeblocks).Pairwise Apart
  cross : ∀ a b, a ≠ b → ∀ x ∈ s.chain a, ∀ y ∈ s.chain b, Apart x y
  inside : ∀ a, ∀ b ∈ s.chain a, b.base + z.header ≤ b.avail ∧ b.avail ≤ b.limit
  header : ∀ b ∈ s.freeblocks, b.base + z.header ≤ b.limit

section
variable {z : Sizes} {n : Nat} {a : Fin 3} {chain : Fin 3 → List Block} {fs : List Block}
  {f : Block} {s : Arenas}

theorem Apart.symm {x y : Block} (apart : Apart x y) : Apart y x := Or.symm apart

theorem mem_update {b : Fin 3} {new : List Block} {x : Block}
    (mem : x ∈ Function.update chain a new b) :
    (b = a ∧ x ∈ new) ∨ (b ≠ a ∧ x ∈ chain b) := by
  by_cases same : b = a
  · subst same
    rw [Function.update_self] at mem
    exact .inl ⟨rfl, mem⟩
  · rw [Function.update_of_ne same] at mem
    exact .inr ⟨same, mem⟩

theorem Good.drop (good : Good z ⟨chain, f :: fs⟩) : Good z ⟨chain, fs⟩ where
  own a := (good.own a).sublist ((List.sublist_cons_self f fs).append_left _)
  cross := good.cross
  inside := good.inside
  header b mem := good.header b (List.mem_cons_of_mem _ mem)

theorem Good.free (good : Good z ⟨chain, f :: fs⟩) : (∀ b, ∀ x ∈ chain b, Apart f x) ∧
    ∀ x ∈ fs, Apart f x := by
  refine ⟨fun b x mem => ?_, fun x mem => ?_⟩
  · exact ((List.pairwise_append.mp (good.own b)).2.2 x mem f (List.mem_cons_self ..)).symm
  · exact (List.pairwise_cons.mp (List.pairwise_append.mp (good.own 0)).2.1).1 x mem

theorem Good.add (good : Good z ⟨chain, fs⟩)
    (apart : (∀ b, ∀ x ∈ chain b, Apart f x) ∧ ∀ x ∈ fs, Apart f x)
    (fits : f.base + z.header ≤ f.avail ∧ f.avail ≤ f.limit) :
      Good z ⟨Function.update chain a (f :: chain a), fs⟩ where
  own b := by
    by_cases same : b = a
    · subst same
      simp only [Function.update_self, List.cons_append]
      refine List.pairwise_cons.mpr ⟨fun x mem => ?_, good.own b⟩
      exact (List.mem_append.mp mem).elim (apart.1 b x) (apart.2 x)
    · simp only [Function.update_of_ne same]
      exact good.own b
  cross b c other x mem_x y mem_y := by
    rcases mem_update mem_x with ⟨is_b, in_x⟩ | ⟨-, in_x⟩
      <;> rcases mem_update mem_y with ⟨is_c, in_y⟩ | ⟨-, in_y⟩
    · exact absurd (is_b.trans is_c.symm) other
    · rcases List.mem_cons.mp in_x with rfl | in_x
      · exact apart.1 c y in_y
      · exact good.cross b c other x (is_b ▸ in_x) y in_y
    · rcases List.mem_cons.mp in_y with rfl | in_y
      · exact (apart.1 b x in_x).symm
      · exact good.cross b c other x in_x y (is_c ▸ in_y)
    · exact good.cross b c other x in_x y in_y
  inside b x mem := by
    rcases mem_update mem with ⟨rfl, mem⟩ | ⟨-, mem⟩
    · rcases List.mem_cons.mp mem with rfl | mem
      · exact fits
      · exact good.inside b x mem
    · exact good.inside b x mem
  header := good.header

theorem fit_good (good : Good z ⟨chain, fs⟩) : Good z (fit z n a chain fs) := by
  induction fs generalizing chain with
  | nil => exact good
  | cons f fs ih =>
    rw [fit]
    split
    · exact good
    · have fits : (f.reset z).base + z.header ≤ (f.reset z).avail ∧
        (f.reset z).avail ≤ (f.reset z).limit :=
        ⟨Nat.le_refl _, good.header f (List.mem_cons_self ..)⟩
      have added : Good z ⟨Function.update chain a (f.reset z :: chain a), fs⟩ :=
        good.drop.add good.free fits
      exact ih added

theorem roundup_le (x : Nat) (positive : 0 < n) : x ≤ roundup x n := by
  have split := Nat.div_add_mod (x + (n - 1)) n
  have small := Nat.mod_lt (x + (n - 1)) positive
  unfold roundup
  rw [Nat.mul_comm] at split
  omega

/-- A request that is asserted, and for which the size of a new block is not cut off. -/
def Fits (z : Sizes) (size : Nat) : Prop :=
  0 < size ∧ z.header + roundup size z.align + roundup (10 * 1024) z.align < 0x100000000

/-- A block that `malloc` returns overlaps none of those that it has returned before. -/
def Fresh (z : Sizes) (n : Nat) (a : Fin 3) (fresh : Nat) (s : Arenas) : Prop :=
  room n ((fit z n a s.chain s.freeblocks).chain a) = false →
    (∀ b, ∀ x ∈ (fit z n a s.chain s.freeblocks).chain b, Apart (malloced z n fresh) x) ∧
      ∀ x ∈ (fit z n a s.chain s.freeblocks).freeblocks, Apart (malloced z n fresh) x

/-- What an arena holds of an earlier request stays where it is. -/
def Holds (z : Sizes) (blocks : List Block) (addr size : Nat) : Prop :=
  ∃ b ∈ blocks, b.base + z.header ≤ addr ∧ addr + size ≤ b.avail

theorem Holds.add {b : Fin 3} {addr size : Nat} (holds : Holds z (chain b) addr size) :
    Holds z (Function.update chain a (f :: chain a) b) addr size := by
  obtain ⟨x, mem, inside⟩ := holds
  by_cases same : b = a
  · subst same
    rw [Function.update_self]
    exact ⟨x, List.mem_cons_of_mem _ mem, inside⟩
  · rw [Function.update_of_ne same]
    exact ⟨x, mem, inside⟩

theorem fit_holds {b : Fin 3} {addr size : Nat} (holds : Holds z (chain b) addr size) :
    Holds z ((fit z n a chain fs).chain b) addr size := by
  induction fs generalizing chain with
  | nil => exact holds
  | cons f fs ih =>
    rw [fit]
    split
    · exact holds
    · exact ih holds.add

theorem prepare_good {fresh : Nat} (good : Good z s)
    (small : z.header + n + roundup (10 * 1024) z.align < 0x100000000)
    (free : Fresh z n a fresh s) : Good z (prepare z n a fresh s) ∧
      room n ((prepare z n a fresh s).chain a) = true := by
  have fitted : Good z (fit z n a s.chain s.freeblocks) := fit_good good
  unfold prepare
  dsimp only
  split
  · rename_i enough
    exact ⟨fitted, enough⟩
  · rename_i short
    have whole : mallocSize z n = z.header + n + roundup (10 * 1024) z.align :=
      Nat.mod_eq_of_lt small
    refine ⟨fitted.add (free (eq_false_of_ne_true short)) ⟨Nat.le_refl _, ?_⟩, ?_⟩
    · change fresh + z.header ≤ fresh + mallocSize z n
      omega
    · dsimp only
      rw [Function.update_self]
      refine decide_eq_true (.inl ?_)
      change n ≤ fresh + mallocSize z n - (fresh + z.header)
      omega

theorem prepare_holds {b : Fin 3} {addr size fresh : Nat} (holds : Holds z (s.chain b) addr size) :
    Holds z ((prepare z n a fresh s).chain b) addr size := by
  have fitted : Holds z ((fit z n a s.chain s.freeblocks).chain b) addr size := fit_holds holds
  unfold prepare
  dsimp only
  split
  · exact fitted
  · exact fitted.add

theorem Good.pop {ap : Block} {rest : List Block} (good : Good z s)
    (newest : s.chain a = ap :: rest) :
    Good z ⟨Function.update s.chain a rest, s.freeblocks⟩ ∧
      (∀ b, ∀ x ∈ Function.update s.chain a rest b, Apart ap x) ∧
        ∀ x ∈ s.freeblocks, Apart ap x := by
  have whole := good.own a
  rw [newest, List.cons_append] at whole
  obtain ⟨first, others⟩ := List.pairwise_cons.mp whole
  have kept {b : Fin 3} {x : Block} (mem : x ∈ Function.update s.chain a rest b) :
    x ∈ s.chain b := by
    rcases mem_update mem with ⟨rfl, here⟩ | ⟨-, there⟩
    · rw [newest]
      exact List.mem_cons_of_mem _ here
    · exact there
  refine ⟨⟨fun b => ?_, fun b c other x mem_x y mem_y => good.cross b c other x (kept mem_x) y
    (kept mem_y),
    fun b x mem => good.inside b x (kept mem), good.header⟩, fun b x mem => ?_, fun x mem => ?_⟩
  · by_cases same : b = a
    · subst same
      dsimp only
      rw [Function.update_self]
      exact others
    · dsimp only
      rw [Function.update_of_ne same]
      exact good.own b
  · rcases mem_update mem with ⟨rfl, here⟩ | ⟨other, there⟩
    · exact first x (List.mem_append_left _ here)
    · exact good.cross a b other.symm ap (newest ▸ List.mem_cons_self ..) x there
  · exact first x (List.mem_append_right _ mem)

theorem allocate_good {size fresh : Nat} (good : Good z s) (fits : Fits z size)
    (free : Fresh z (roundup size z.align) a fresh s) :
    ∃ addr s', allocate z size a fresh s = some (addr, s') ∧ Good z s' ∧
      Holds z (s'.chain a) addr (roundup size z.align) ∧
      ∀ b addr' k, Holds z (s.chain b) addr' k →
        Holds z (s'.chain b) addr' k ∧
          (addr + roundup size z.align ≤ addr' ∨ addr' + k ≤ addr) := by
  obtain ⟨prepared, enough⟩ := prepare_good good fits.2 free
  have keeps {b : Fin 3} {addr' k : Nat} (holds : Holds z (s.chain b) addr' k) :
      Holds z ((prepare z (roundup size z.align) a fresh s).chain b) addr' k := prepare_holds holds
  unfold allocate
  rw [if_pos fits.1]
  dsimp only
  generalize prepare z (roundup size z.align) a fresh s = p at prepared enough keeps
  generalize roundup size z.align = n at enough
  cases newest : p.chain a with
  | nil =>
    rw [newest] at enough
    cases enough
  | cons ap rest =>
    rw [newest] at enough
    have either_room : n ≤ ap.limit - ap.avail ∨ ap.limit < ap.avail := of_decide_eq_true enough
    obtain ⟨low, high⟩ := prepared.inside a ap (newest ▸ List.mem_cons_self ..)
    obtain ⟨popped, apart, apart_free⟩ := prepared.pop newest
    have added := popped.add (f := { ap with avail := ap.avail + n }) (a := a) ⟨apart, apart_free⟩
      ⟨Nat.le_trans low (Nat.le_add_right ..), show ap.avail + n ≤ ap.limit by omega⟩
    rw [Function.update_self, Function.update_idem] at added
    have taken : Holds z (Function.update p.chain a ({ ap with avail := ap.avail + n } :: rest) a)
      ap.avail n := by
      rw [Function.update_self]
      exact ⟨_, List.mem_cons_self .., low, Nat.le_refl _⟩
    refine ⟨ap.avail, _, if_pos enough, added, taken, fun b addr' k holds => ?_⟩
    obtain ⟨x, mem, from_, upto⟩ := keeps holds
    -- the block of the earlier request: the newest one itself, or one that it does not overlap
    have either : (b = a ∧ x = ap) ∨ x ∈ Function.update p.chain a rest b := by
      by_cases same : b = a
      · subst same
        rw [Function.update_self]
        rw [newest] at mem
        exact (List.mem_cons.mp mem).imp (fun is => ⟨rfl, is⟩) id
      · rw [Function.update_of_ne same]
        exact .inr mem
    rcases either with ⟨rfl, rfl⟩ | other
    · dsimp only
      rw [Function.update_self]
      exact ⟨⟨_, List.mem_cons_self .., from_, Nat.le_trans upto (Nat.le_add_right ..)⟩, .inr upto⟩
    · have inside := (prepared.inside b x mem).2
      refine ⟨⟨x, ?_, from_, upto⟩, ?_⟩
      · dsimp only
        rcases mem_update other with ⟨rfl, here⟩ | ⟨different, there⟩
        · rw [Function.update_self]
          exact List.mem_cons_of_mem _ here
        · rw [Function.update_of_ne different]
          exact there
      · rcases apart b x other with before | behind
        · exact .inl (by omega)
        · exact .inr (by omega)

theorem deallocate_good (good : Good z s) (a : Fin 3) : Good z (deallocate a s) where
  own b := by
    have listed : ((s.chain a).reverse ++ s.freeblocks).Pairwise Apart :=
      ((List.reverse_perm _).append_right _).pairwise_iff (fun apart => apart.symm) |>.mpr
      (good.own a)
    by_cases same : b = a
    · subst same
      simpa only [deallocate, Function.update_self, List.nil_append] using listed
    · simp only [deallocate, Function.update_of_ne same]
      refine List.pairwise_append.mpr
        ⟨(List.pairwise_append.mp (good.own b)).1, listed, fun x mem y mem' => ?_⟩
      rcases List.mem_append.mp mem' with old | free
      · exact good.cross b a same x mem y (List.mem_reverse.mp old)
      · exact (List.pairwise_append.mp (good.own b)).2.2 x mem y free
  cross b c other x mem_x y mem_y := by
    rcases mem_update mem_x with ⟨-, never⟩ | ⟨-, in_x⟩
    · cases never
    rcases mem_update mem_y with ⟨-, never⟩ | ⟨-, in_y⟩
    · cases never
    exact good.cross b c other x in_x y in_y
  inside b x mem := by
    rcases mem_update mem with ⟨-, never⟩ | ⟨-, there⟩
    · cases never
    exact good.inside b x there
  header x mem := by
    rcases List.mem_append.mp mem with old | free
    · have inside := good.inside a x (List.mem_reverse.mp old)
      omega
    · exact good.header x free

end

/-- Memory that has been returned and not been given back. -/
structure Live where
  arena : Fin 3
  addr : Nat
  size : Nat

structure State where
  arenas : Arenas
  live : List Live

inductive Request where
  | allocate (size : Nat) (a : Fin 3) (fresh : Nat)
  | deallocate (a : Fin 3)

def start : State := ⟨⟨fun _ => [], []⟩, []⟩

def step (z : Sizes) (s : State) : Request → Option State
  | .allocate size a fresh =>
    (allocate z size a fresh s.arenas).map fun r => ⟨r.2, ⟨a, r.1, size⟩ :: s.live⟩
  | .deallocate a => some ⟨deallocate a s.arenas, s.live.filter fun l => l.arena ≠ a⟩

/-- What is asked of the callers and of `malloc`. -/
def Valid (z : Sizes) (s : State) : Request → Prop
  | .allocate size a fresh => Fits z size ∧ Fresh z (roundup size z.align) a fresh s.arenas
  | .deallocate _ => True

def Live.Apart (l k : Live) : Prop := l.addr + l.size ≤ k.addr ∨ k.addr + k.size ≤ l.addr

structure Inv (z : Sizes) (s : State) : Prop where
  good : Good z s.arenas
  held : ∀ l ∈ s.live, Holds z (s.arenas.chain l.arena) l.addr l.size
  apart : s.live.Pairwise Live.Apart

section
variable {z : Sizes} {s : State}

theorem start_inv : Inv z start where
  good := {
    own := fun _ => List.Pairwise.nil
    cross := fun _ _ _ => List.forall_mem_nil _
    inside := fun _ => List.forall_mem_nil _
    header := List.forall_mem_nil _ }
  held := List.forall_mem_nil _
  apart := List.Pairwise.nil

theorem step_inv (inv : Inv z s) {request : Request} (valid : Valid z s request) :
    ∃ s', step z s request = some s' ∧ Inv z s' := by
  cases request with
  | allocate size a fresh =>
    obtain ⟨addr, arenas, returned, good, holds, others⟩ := allocate_good inv.good valid.1 valid.2
    have rounded : size ≤ roundup size z.align := roundup_le size z.positive
    refine ⟨⟨arenas, ⟨a, addr, size⟩ :: s.live⟩, by rw [step, returned]; rfl, good, fun l mem => ?_, ?_⟩
    · rcases List.mem_cons.mp mem with rfl | old
      · obtain ⟨b, there, low, high⟩ := holds
        exact ⟨b, there, low, Nat.le_trans (Nat.add_le_add_left rounded addr) high⟩
      · exact (others _ _ _ (inv.held l old)).1
    · refine List.pairwise_cons.mpr ⟨fun l old => ?_, inv.apart⟩
      exact (others _ _ _ (inv.held l old)).2.imp_left
        (Nat.le_trans (Nat.add_le_add_left rounded addr))
  | deallocate a =>
    refine ⟨_, rfl, deallocate_good inv.good a, fun l mem => ?_, inv.apart.filter _⟩
    obtain ⟨old, other⟩ := List.mem_filter.mp mem
    have different : l.arena ≠ a := of_decide_eq_true other
    obtain ⟨x, there, inside⟩ := inv.held l old
    refine ⟨x, ?_, inside⟩
    change x ∈ Function.update s.arenas.chain a [] l.arena
    rwa [Function.update_of_ne different]

theorem run_inv (inv : Inv z s) {requests : List Request}
    (valid : Runs.Throughout (step z) (Valid z) s requests) :
    ∃ s', Runs.run (step z) s requests = some s' ∧ Inv z s' := by
  induction requests generalizing s with
  | nil => exact ⟨s, rfl, inv⟩
  | cons request requests ih =>
    obtain ⟨next, stepped, inv_next⟩ := step_inv inv valid.1
    obtain ⟨last, ran, inv_last⟩ := ih inv_next (valid.2 next stepped)
    exact ⟨last, Runs.run_cons_some.mpr ⟨next, stepped, ran⟩, inv_last⟩

/-- However memory is asked for and given back, no two parts that are in use overlap, and each lies
in a block of its own arena. -/
theorem run_apart {requests : List Request}
    (valid : Runs.Throughout (step z) (Valid z) start requests) :
    ∃ s, Runs.run (step z) start requests = some s ∧ s.live.Pairwise Live.Apart ∧
      ∀ l ∈ s.live, ∃ b ∈ s.arenas.chain l.arena, b.base + z.header ≤ l.addr ∧
        l.addr + l.size ≤ b.limit := by
  obtain ⟨s, ran, inv⟩ := run_inv start_inv valid
  refine ⟨s, ran, inv.apart, fun l mem => ?_⟩
  obtain ⟨b, there, low, high⟩ := inv.held l mem
  exact ⟨b, there, low, Nat.le_trans high (inv.good.inside _ b there).2⟩

end

/-- A block that is used again, by another arena. -/
def again : List Request := [.allocate 10 0 1000, .deallocate 0, .allocate 20 1 0, .allocate 4 1 0]

theorem run_apart_again : ∃ s, Runs.run (step ⟨8, 24, by decide⟩) start again = some s ∧
    s.live.Pairwise Live.Apart ∧
    ∀ l ∈ s.live, ∃ b ∈ s.arenas.chain l.arena, b.base + 24 ≤ l.addr ∧
      l.addr + l.size ≤ b.limit := by
  refine run_apart (z := ⟨8, 24, by decide⟩) ⟨⟨?_, fun _ => ?_⟩, fun s is => ?_⟩
  · change 0 < 10 ∧ 24 + roundup 10 8 + roundup (10 * 1024) 8 < 0x100000000
    decide
  · exact ⟨fun _ => List.forall_mem_nil _, List.forall_mem_nil _⟩
  obtain rfl := Option.some.inj is
  refine ⟨trivial, fun s is => ?_⟩
  obtain rfl := Option.some.inj is
  refine ⟨⟨?_, fun short => absurd short (by decide)⟩, fun s is => ?_⟩
  · change 0 < 20 ∧ 24 + roundup 20 8 + roundup (10 * 1024) 8 < 0x100000000
    decide
  obtain rfl := Option.some.inj is
  refine ⟨⟨?_, fun short => absurd short (by decide)⟩, fun s is => trivial⟩
  change 0 < 4 ∧ 24 + roundup 4 8 + roundup (10 * 1024) 8 < 0x100000000
  decide

end LC3Tools.Arena
