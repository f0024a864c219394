import LC3Tools.Stdio.Scanf
import LC3Tools.Stdio.Saving

/-! `scanf` with the format `%d`: one character after the other, the sum of the digits, and the
call. -/
namespace LC3Tools.Stdio.Scanf
open Emit StateTransition Inst

set_option maxRecDepth 8000

def Buffer (base a : Word) : Prop := ∃ j < capacity, a = routine.place base .buf j

/-- What was taken stands in the buffer. -/
def Filled (base : Word) (mem : Word → Word) (taken : List Byte) : Prop :=
  ∀ j c, taken[j]? = some c → mem (routine.place base .buf j) = c.setWidth 16

/-- All that was read was printed. -/
def Echoed (s t : State) : Prop := ∃ front, s.input = front ++ t.input ∧
    t.output = s.output ++ front

theorem Echoed.refl (s : State) : Echoed s s := ⟨[], rfl, (List.append_nil _).symm⟩

theorem Echoed.trans {s t u : State} (first : Echoed s t) (second : Echoed t u) : Echoed s u := by
  obtain ⟨front, input, output⟩ := first
  obtain ⟨front', input', output'⟩ := second
  exact ⟨front ++ front', by rw [input, input', List.append_assoc], by rw [output', output,
    List.append_assoc]⟩

theorem Kept.echoed {rs : List (Fin 8)} {s t : State} (kept : Kept rs s t) : Echoed s t :=
  ⟨[], kept.input.symm, by rw [kept.output, List.append_nil]⟩

/-- What OUT leaves in R0 is again a character, by the one that it prints. -/
def Leaves (os : Os) (g : Byte → Byte) : Prop :=
  ∀ (s : State) (c : Byte), s.machine.reg 0 = c.setWidth 16 → os.r0 s = (g c).setWidth 16

/-- A character is read for a number that has so many already. -/
structure Scanning (base : Word) (taken : List Byte) (s : State) : Prop where
  pc : s.pc = routine.place base .scannum 0
  loaded : routine.Loaded base s.machine.mem
  next : s.machine.reg 4 = routine.place base .buf taken.length
  room : taken.length < capacity
  zero : s.machine.reg 2 = -48
  nine : s.machine.reg 1 = -57
  filled : Filled base s.machine.mem taken

section
variable {os : Os} {base : Word} {taken : List Byte} {g : Byte → Byte} {s t : State} {c : Byte}
  {rest : List Byte}

variable (os) in
theorem word_stored {k : Nat} (loaded : routine.Loaded base s.machine.mem)
    (pc : s.pc = routine.place base .scannum 0)
    (next : s.machine.reg 4 = routine.place base .buf k) (room : k < capacity)
    (input : s.input = c :: rest) :
    ∃ t, Path os (Buffer base) s t ∧ t.pc = routine.place base .scannum 3 ∧
      (Leaves os g → t.machine.reg 0 = (g c).setWidth 16) ∧
      (∀ i ∉ [0, 7], t.machine.reg i = s.machine.reg i) ∧
      t.machine.mem = (fun a =>
        if a = routine.place base .buf k then t.machine.reg 0 else s.machine.mem a) ∧
      t.input = rest ∧ t.output = s.output ++ [c] := by
  have got : Service.getc.effect os s = some (s.back os (c.setWidth 16) rest s.output) := by
    rw [Service.effect, input]
  obtain ⟨t₁, path₁, pc₁, zero₁, reg₁, mem₁, input₁, output₁⟩ :=
    Routine.called os (Buffer base) loaded
    pc .getc (by decide) got
  have loaded₁ : routine.Loaded base t₁.machine.mem := mem₁ ▸ loaded
  obtain ⟨t₂, path₂, pc₂, zero₂, reg₂, mem₂, input₂, output₂⟩ :=
    Routine.called os (Buffer base) loaded₁
    pc₁ .out (by decide) rfl
  have four₂ : t₂.machine.reg 4 = routine.place base .buf k :=
    ((reg₂ 4 (by decide)).trans (reg₁ 4 (by decide))).trans next
  obtain ⟨t, path, pc, machine, input', output'⟩ :=
    Routine.store os (Buffer base) (mem₂ ▸ loaded₁) pc₂ [] 0 4 0
    (by decide) rfl ⟨k, room, (plus_zero _).trans four₂⟩
  have reg : t.machine.reg = t₂.machine.reg := by
    rw [machine]
    rfl
  refine ⟨t, (path₁.trans path₂).trans path, pc, fun leaves => ?_, fun i away => ?_, ?_, ?_, ?_⟩
  · rw [reg]
    exact zero₂.trans (leaves t₁ c zero₁)
  · rw [reg, reg₂ i away, reg₁ i away]
  · rw [reg, ← four₂, ← plus_zero (t₂.machine.reg 4), ← mem₁, ← mem₂, machine]
    rfl
  · rw [input', input₂, input₁]
  · have printed : character (t₁.machine.reg 0) = c := by
      rw [zero₁]
      exact BitVec.setWidth_setWidth_of_le c (by decide)
    rw [output', output₂, output₁, printed]

theorem takes_nz (m : Machine) :
    m.takes true true false = (decide (m.last = 0#16) || m.last.msb) := by
  unfold Machine.takes
  by_cases zero : m.last = 0#16 <;> simp [zero]

theorem wide (c : Byte) : c.setWidth 16 = BitVec.ofNat 16 c.toNat := (BitVec.ofNat_toNat 16 c).symm

theorem accepted_iff (c : Byte) : accepted c = true ↔ (48 ≤ c.toNat ∧ c.toNat ≤ 57) ∨
    c.toNat = 45 := by
  have digit : isdigit c = true ↔ 48 ≤ c.toNat ∧ c.toNat ≤ 57 := by
    simp only [isdigit, Bool.and_eq_true, decide_eq_true_eq, BitVec.le_def]
    rfl
  have minus : c = byte '-' ↔ c.toNat = 45 := by
    rw [← BitVec.toNat_inj]
    rfl
  rw [accepted, Bool.or_eq_true, digit, decide_eq_true_eq, minus]

variable (os) in
theorem upper_judged (loaded : routine.Loaded base s.machine.mem)
    (pc : s.pc = routine.place base .checkedlower 0)
    (stored : s.machine.mem (s.machine.reg 4) = c.setWidth 16) (nine : s.machine.reg 1 = -57) :
    ∃ t, Path os (Buffer base) s t ∧ Kept [0] s t ∧
      t.pc = if c.toNat ≤ 57 then routine.place base .checkedupper 0
        else routine.place base .checkedlower 3 := by
  obtain ⟨t, path, pc', machine, kept⟩ :=
    Routine.branch os (Buffer base) loaded pc [ldr 0 4 0, add 0 1 0]
    true true false .checkedupper (by decide) rfl
  have last : t.machine.last = BitVec.ofNat 16 c.toNat - BitVec.ofNat 16 57 := by
    rw [BitVec.sub_eq_add_neg, BitVec.add_comm, ← wide, ← stored, ← plus_zero (s.machine.reg 4),
      machine]
    exact congrArg (· + s.machine.mem (s.machine.reg 4 + BitVec.ofInt 16 0)) nine
  have small := c.isLt
  have equal : t.machine.last = 0#16 ↔ c.toNat = 57 := by
    rw [last, BitVec.sub_eq_iff_eq_add, BitVec.zero_add, ← BitVec.toNat_inj, BitVec.toNat_ofNat,
      BitVec.toNat_ofNat]
    omega
  have under : t.machine.last.msb = decide (c.toNat < 57) := by
    rw [last]
    exact sub_msb (by omega) (by decide) (by decide)
  refine ⟨t, path, kept.mono (by decide), ?_⟩
  rw [pc', ← machine, takes_nz, under]
  by_cases below : c.toNat ≤ 57
  · rw [if_pos below, if_pos]
    rcases Nat.lt_or_eq_of_le below with less | same
    · rw [decide_eq_true less, Bool.or_true]
    · rw [decide_eq_true (equal.mpr same), Bool.true_or]
  · rw [decide_eq_false fun zero => below (Nat.le_of_eq (equal.mp zero)),
      decide_eq_false fun less => below (Nat.le_of_lt less), if_neg below]
    rfl

variable (os) in
theorem character_judged (loaded : routine.Loaded base s.machine.mem)
    (pc : s.pc = routine.place base .scannum 3)
    (value : s.machine.reg 0 = c.setWidth 16)
    (stored : s.machine.mem (s.machine.reg 4) = c.setWidth 16)
    (zero : s.machine.reg 2 = -48) (nine : s.machine.reg 1 = -57) :
    ∃ t, Path os (Buffer base) s t ∧ Kept [0, 7] s t ∧
      if accepted c then t.pc = routine.place base .checkedupper 0
      else t.pc = routine.place base .scannum 9 ∨ t.pc = routine.place base .checkedlower 3 := by
  obtain ⟨t, path, pc', machine, kept⟩ := Routine.branch os (Buffer base) loaded pc [add 0 2 0]
    false true true .checkedlower (by decide) rfl
  have small := c.isLt
  have last : t.machine.last = BitVec.ofNat 16 c.toNat - BitVec.ofNat 16 48 := by
    rw [BitVec.sub_eq_add_neg, BitVec.add_comm, ← wide, ← value, machine]
    exact congrArg (· + s.machine.reg 0) zero
  rw [← machine, takes_zp, last, sub_msb (by omega) (by decide) (by decide)] at pc'
  by_cases below : c.toNat < 48
  · rw [decide_eq_true below, Bool.not_true, if_neg Bool.false_ne_true] at pc'
    obtain ⟨u, path', pc'', machine', kept'⟩ :=
      Routine.branch os (Buffer base) (kept.mem ▸ loaded) pc'
      [ldr 0 4 0, ld 7 .minus, add 0 0 7] false true false .checkedlower (by decide) rfl
    have minus : t.machine.mem (routine.address base .minus) = -45 := by
      rw [kept.mem]
      exact loaded (index source .minus) _ (by decide) (by decide)
    have same : t.machine.mem (t.machine.reg 4) = c.setWidth 16 := by
      rw [kept.mem, kept.reg 4 (by decide), stored]
    have last' : u.machine.last = c.setWidth 16 - 45 := by
      rw [BitVec.sub_eq_add_neg, ← same, ← plus_zero (t.machine.reg 4), machine']
      exact congrArg (t.machine.mem (t.machine.reg 4 + BitVec.ofInt 16 0) + ·) minus
    have equal : u.machine.last = 0#16 ↔ c.toNat = 45 := by
      rw [last', BitVec.sub_eq_iff_eq_add, BitVec.zero_add, wide, ← BitVec.toNat_inj,
        BitVec.toNat_ofNat]
      have fortyfive : (45 : Word).toNat = 45 := rfl
      omega
    have both : Kept [0, 7] s u := (kept.mono (by decide)).trans (kept'.mono (by decide))
    rw [← machine', takes_z] at pc''
    by_cases sign : c.toNat = 45
    · rw [decide_eq_true (equal.mpr sign), if_pos rfl] at pc''
      obtain ⟨v, path'', kept'', pc'''⟩ := upper_judged os (c := c) (both.mem ▸ loaded) pc''
        (by rw [both.mem, both.reg 4 (by decide), stored]) ((both.reg 1 (by decide)).trans nine)
      refine ⟨v, (path.trans path').trans path'', both.trans (kept''.mono (by decide)), ?_⟩
      rw [if_pos ((accepted_iff c).mpr (.inr sign))]
      exact pc'''.trans (if_pos (by omega))
    · rw [decide_eq_false fun zero => sign (equal.mp zero), if_neg Bool.false_ne_true] at pc''
      refine ⟨u, path.trans path', both, ?_⟩
      rw [if_neg fun yes => ?_]
      · exact .inl pc''
      · have := (accepted_iff c).mp yes
        omega
  · rw [decide_eq_false below, Bool.not_false, if_pos rfl] at pc'
    obtain ⟨u, path', kept', pc''⟩ := upper_judged os (c := c) (kept.mem ▸ loaded) pc'
      (by rw [kept.mem, kept.reg 4 (by decide), stored]) ((kept.reg 1 (by decide)).trans nine)
    refine ⟨u, path.trans path', (kept.mono (by decide)).trans (kept'.mono (by decide)), ?_⟩
    split
    · rename_i yes
      have := (accepted_iff c).mp yes
      exact pc''.trans (if_pos (by omega))
    · rename_i no
      have high : ¬ c.toNat ≤ 57 :=
        fun low => no ((accepted_iff c).mpr (.inl ⟨Nat.le_of_not_lt below, low⟩))
      exact .inr (pc''.trans (if_neg high))

theorem buf_inside : index routine.items .buf + capacity < (cells routine.items).length := by decide

theorem size_small : (cells routine.items).length < 2 ^ 16 := by decide

theorem buf_eq_iff {i j : Nat} (inside : i < capacity) (inside' : j < capacity) :
    routine.place base .buf i = routine.place base .buf j ↔ i = j := by
  have := buf_inside
  have := size_small
  refine ⟨fun same => ?_, fun same => same ▸ rfl⟩
  have := offset_inj (by omega) (by omega) same
  omega

theorem sub_zero_iff {i j : Nat} (inside : i < capacity) (inside' : j < capacity) :
    routine.place base .buf i - routine.place base .buf j = 0#16 ↔ i = j := by
  rw [BitVec.sub_eq_iff_eq_add, BitVec.zero_add, buf_eq_iff inside inside']

variable (os) in
theorem rejected {start : Label} {n k : Nat} (loaded : routine.Loaded base s.machine.mem)
    (pc : s.pc = routine.place base start n) (next : s.machine.reg 4 = routine.place base .buf k)
    (inside : k < capacity)
    (there : ([lea 0 .buf, not 0 0, addImm 0 0 1, add 0 4 0, br false true false .scannum,
      addImm 4 4 (-1),
      br true true true .numdone] : List (Inst Label)).map .inst <+:
        (cells routine.items).drop (index routine.items start + n)) :
    ∃ t, Path os (Buffer base) s t ∧ Kept [0, 4] s t ∧
      if k = 0 then t.pc = routine.place base .scannum 0 ∧ t.machine.reg 4 = s.machine.reg 4
      else t.pc = routine.place base .numdone 0 ∧
        t.machine.reg 4 = routine.place base .buf (k - 1) := by
  have parts := split_prefix [lea 0 Label.buf, not 0 0, addImm 0 0 1, add 0 4 0,
      br false true false .scannum] there
  obtain ⟨t, path, pc', machine, kept⟩ := Routine.branch os (Buffer base) loaded pc
    [lea 0 .buf, not 0 0, addImm 0 0 1, add 0 4 0] false true false .scannum parts.1 rfl
  have last : t.machine.last = routine.place base .buf k - routine.place base .buf 0 := by
    rw [BitVec.sub_eq_add_neg, ← neg_word, ← next, machine]
    rfl
  have zero : t.machine.last = 0#16 ↔ k = 0 := by
    rw [last]
    exact sub_zero_iff inside (by decide)
  rw [← machine, takes_z] at pc'
  split
  · rename_i none
    rw [decide_eq_true (zero.mpr none), if_pos rfl] at pc'
    exact ⟨t, path, kept.mono (by decide), pc', kept.reg 4 (by decide)⟩
  · rename_i some
    rw [decide_eq_false fun h => some (zero.mp h), if_neg Bool.false_ne_true] at pc'
    obtain ⟨u, path', pc'', machine', kept'⟩ :=
      Routine.branch os (Buffer base) (kept.mem ▸ loaded) pc'
      [addImm 4 4 (-1)] true true true .numdone parts.2 rfl
    obtain ⟨j, rfl⟩ : ∃ j, k = j + 1 := ⟨k - 1, by omega⟩
    have back : routine.place base .buf (j + 1) = routine.place base .buf j + 1 :=
      (next_address _ _).symm
    rw [takes_always, if_pos rfl] at pc''
    refine ⟨u, path.trans path', (kept.mono (by decide)).trans (kept'.mono (by decide)), pc'', ?_⟩
    rw [Nat.add_sub_cancel, ← BitVec.add_sub_cancel (routine.place base .buf j) 1, ← back, ← next,
      ← kept.reg 4 (by decide), ← minus_one, machine']
    rfl

variable (os) in
theorem accepted_goes_on {k : Nat} (loaded : routine.Loaded base s.machine.mem)
    (pc : s.pc = routine.place base .checkedupper 0)
    (next : s.machine.reg 4 = routine.place base .buf k)
    (inside : k < capacity) :
    ∃ t, Path os (Buffer base) s t ∧ Kept [0, 4] s t ∧
      if k + 1 = capacity then t.pc = routine.place base .numdone 0 ∧
        t.machine.reg 4 = s.machine.reg 4
      else t.pc = routine.place base .scannum 0 ∧
        t.machine.reg 4 = routine.place base .buf (k + 1) := by
  obtain ⟨t, path, pc', machine, kept⟩ := Routine.branch os (Buffer base) loaded pc
    [lea 0 .buf, addImm 0 0 5, not 0 0, addImm 0 0 1, add 0 4 0] false true false .numdone
    (by decide) rfl
  have top : routine.place base .buf 5 = routine.address base .buf + BitVec.ofInt 16 5 :=
    (congrArg (base + ·) (BitVec.ofNat_add _ 5)).trans (BitVec.add_assoc _ _ _).symm
  have last : t.machine.last = routine.place base .buf k - routine.place base .buf 5 := by
    rw [BitVec.sub_eq_add_neg, ← neg_word, ← next, top, machine]
    rfl
  have full : t.machine.last = 0#16 ↔ k + 1 = capacity := by
    rw [last, sub_zero_iff inside (by decide), capacity]
    omega
  rw [← machine, takes_z] at pc'
  split
  · rename_i yes
    rw [decide_eq_true (full.mpr yes), if_pos rfl] at pc'
    exact ⟨t, path, kept.mono (by decide), pc', kept.reg 4 (by decide)⟩
  · rename_i no
    rw [decide_eq_false fun h => no (full.mp h), if_neg Bool.false_ne_true] at pc'
    obtain ⟨u, path', pc'', machine', kept'⟩ :=
      Routine.branch os (Buffer base) (kept.mem ▸ loaded) pc'
      [addImm 4 4 1] true true true .scannum (by decide) rfl
    have on : routine.place base .buf (k + 1) = routine.place base .buf k + 1 :=
      (next_address _ _).symm
    rw [takes_always, if_pos rfl] at pc''
    refine ⟨u, path.trans path', (kept.mono (by decide)).trans (kept'.mono (by decide)), pc'', ?_⟩
    rw [on, ← next, ← kept.reg 4 (by decide), machine']
    rfl

end

/-! The whole number. -/

section
variable {os : Os} {base : Word} {taken : List Byte} {g : Byte → Byte} {s t : State} {c : Byte}
  {rest : List Byte}

theorem Filled.write {mem : Word → Word} {w : Word} (filled : Filled base mem taken) {k : Nat}
    (short : taken.length ≤ k) (inside : k < capacity) :
    Filled base (fun a => if a = routine.place base .buf k then w else mem a) taken := by
  intro j c there
  have less : j < taken.length := (List.getElem?_eq_some_iff.mp there).1
  refine (if_neg fun same => ?_).trans (filled j c there)
  have := (buf_eq_iff (by omega) inside).mp same
  omega

theorem Filled.snoc {mem : Word → Word} (filled : Filled base mem taken)
    (last : mem (routine.place base .buf taken.length) = c.setWidth 16) :
      Filled base mem (taken ++ [c]) := by
  intro j d there
  rcases Nat.lt_or_ge j taken.length with less | more
  · rw [List.getElem?_append_left less] at there
    exact filled j d there
  · rw [List.getElem?_append_right more] at there
    have here : j = taken.length := by
      have := (List.getElem?_eq_some_iff.mp there).1
      rw [List.length_singleton] at this
      omega
    subst here
    rw [Nat.sub_self, List.getElem?_cons_zero] at there
    cases there
    exact last

/-- A number was read. -/
structure Scanned (base : Word) (text : List Byte) (s t : State) : Prop where
  pc : t.pc = routine.place base .numdone 0
  loaded : routine.Loaded base t.machine.mem
  last : t.machine.reg 4 = routine.place base .buf (text.length - 1)
  short : text.length ≤ capacity
  nonempty : text ≠ []
  filled : Filled base t.machine.mem text
  reg : ∀ i ∈ [5, 6], t.machine.reg i = s.machine.reg i
  echoed : Echoed s t

theorem loaded_buf {v : Word} {mem : Word → Word} (loaded : routine.Loaded base mem) {j : Nat}
    (inside : j < capacity) : routine.Loaded base fun b =>
      if b = routine.place base .buf j then v else mem b := by
  refine loaded.write fun k below fixed same => ?_
  have := buf_inside
  have := size_small
  have here : k = index source .buf + j := offset_inj (Nat.lt_trans below size_small)
    (show index routine.items .buf + j < 2 ^ 16 by omega) same
  have written : routine.scratch k = true := by
    simp only [routine, Bool.and_eq_true, decide_eq_true_eq]
    omega
  exact Bool.noConfusion (fixed.symm.trans written)

variable (os) in
theorem character_scanned (leaves : Leaves os g) (scanning : Scanning base taken s)
    (input : s.input = c :: rest) :
    ∃ t, Path os (Buffer base) s t ∧ t.input = rest ∧ Echoed s t ∧
      (∀ i ∈ [5, 6], t.machine.reg i = s.machine.reg i) ∧
      if accepted (g c) then
        if taken.length + 1 = capacity then Scanned base (taken ++ [g c]) s t
          else Scanning base (taken ++ [g c]) t
      else if taken = [] then Scanning base [] t
      else Scanned base taken s t := by
  obtain ⟨t₁, path₁, pc₁, zero₁, reg₁, mem₁, input₁, output₁⟩ :=
    word_stored os (g := g) scanning.loaded scanning.pc scanning.next scanning.room input
  have zero₁ := zero₁ leaves
  rw [zero₁] at mem₁
  have loaded₁ : routine.Loaded base t₁.machine.mem :=
    mem₁ ▸ loaded_buf scanning.loaded scanning.room
  have next₁ := (reg₁ 4 (by decide)).trans scanning.next
  have stored : t₁.machine.mem (routine.place base .buf taken.length) = (g c).setWidth 16 := by
    rw [mem₁]
    exact if_pos rfl
  have filled : Filled base t₁.machine.mem taken :=
    mem₁ ▸ scanning.filled.write (Nat.le_refl _) scanning.room
  obtain ⟨t₂, path₂, kept₂, judged⟩ := character_judged os loaded₁ pc₁ zero₁ (next₁ ▸ stored)
    ((reg₁ 2 (by decide)).trans scanning.zero) ((reg₁ 1 (by decide)).trans scanning.nine)
  have loaded₂ : routine.Loaded base t₂.machine.mem := kept₂.mem ▸ loaded₁
  have next₂ := (kept₂.reg 4 (by decide)).trans next₁
  -- what the two ends of the choice have in common
  have finish {t : State} (path : Path os (Buffer base) t₂ t) (kept : Kept [0, 4] t₂ t) :
      Path os (Buffer base) s t ∧ t.input = rest ∧ Echoed s t ∧
        (∀ i ∈ [1, 2, 5, 6], t.machine.reg i = s.machine.reg i) ∧
        t.machine.mem = t₁.machine.mem := by
    refine ⟨(path₁.trans path₂).trans path, by rw [kept.input, kept₂.input, input₁],
      ⟨[c], by rw [kept.input, kept₂.input, input₁, input]; rfl, by rw [kept.output, kept₂.output, output₁]⟩,
      fun i mem => ?_, kept.mem.trans kept₂.mem⟩
    have away : ∀ i : Fin 8, i ∈ [1, 2, 5, 6] → i ∉ [0, 4] ∧ i ∉ [0, 7] := by decide
    rw [kept.reg i (away i mem).1, kept₂.reg i (away i mem).2, reg₁ i (away i mem).2]
  have wider : ∀ i : Fin 8, i ∈ [5, 6] → i ∈ [1, 2, 5, 6] := by decide
  by_cases yes : accepted (g c)
  · rw [if_pos yes] at judged
    obtain ⟨t, path, kept, on⟩ := accepted_goes_on os loaded₂ judged next₂ scanning.room
    obtain ⟨whole, left, echoed, reg, mem⟩ := finish path kept
    have filled' : Filled base t.machine.mem (taken ++ [g c]) := mem ▸ filled.snoc stored
    have loaded : routine.Loaded base t.machine.mem := mem ▸ loaded₁
    refine ⟨t, whole, left, echoed, fun i mem => reg i (wider i mem), ?_⟩
    rw [if_pos yes]
    split at on
    · rename_i full
      rw [if_pos full]
      refine ⟨on.1, loaded, ?_, ?_, by simp, filled', fun i mem => reg i (wider i mem), echoed⟩
      · rw [on.2, next₂, List.length_append, List.length_singleton, Nat.add_sub_cancel]
      · rw [List.length_append, List.length_singleton]
        omega
    · rename_i more
      rw [if_neg more]
      refine ⟨on.1, loaded, ?_, ?_, (reg 2 (by decide)).trans scanning.zero,
        (reg 1 (by decide)).trans scanning.nine,
        filled'⟩
      · rw [on.2, List.length_append, List.length_singleton]
      · have := scanning.room
        rw [List.length_append, List.length_singleton]
        omega
  · rw [if_neg yes] at judged
    obtain ⟨t, path, kept, on⟩ : ∃ t, Path os (Buffer base) t₂ t ∧ Kept [0, 4] t₂ t ∧
        if taken.length = 0 then t.pc = routine.place base .scannum 0 ∧
          t.machine.reg 4 = t₂.machine.reg 4
        else t.pc = routine.place base .numdone 0 ∧
          t.machine.reg 4 = routine.place base .buf (taken.length - 1) := by
      rcases judged with low | high
      · exact rejected os loaded₂ low next₂ scanning.room (by decide)
      · exact rejected os loaded₂ high next₂ scanning.room (by decide)
    obtain ⟨whole, left, echoed, reg, mem⟩ := finish path kept
    have loaded : routine.Loaded base t.machine.mem := mem ▸ loaded₁
    refine ⟨t, whole, left, echoed, fun i mem => reg i (wider i mem), ?_⟩
    rw [if_neg yes]
    split at on
    · rename_i none
      have empty := List.eq_nil_of_length_eq_zero none
      subst empty
      rw [if_pos rfl]
      exact ⟨on.1, loaded, on.2.trans next₂, by decide, (reg 2 (by decide)).trans scanning.zero,
        (reg 1 (by decide)).trans scanning.nine, mem ▸ filled⟩
    · rename_i some
      have nonempty : taken ≠ [] := fun empty => some (by rw [empty]; rfl)
      rw [if_neg nonempty]
      exact ⟨on.1, loaded, on.2, Nat.le_of_lt scanning.room, nonempty, mem ▸ filled,
        fun i mem => reg i (wider i mem), echoed⟩

/-- The machine waits for a character that is not there. -/
def Waits (os : Os) (base : Word) (s : State) : Prop :=
  s.pc = routine.place base .scannum 0 ∧ s.input = [] ∧ step os s = none

variable (os) in
theorem waits (loaded : routine.Loaded base s.machine.mem)
    (pc : s.pc = routine.place base .scannum 0)
    (given : s.input = []) : Waits os base s := by
  refine ⟨pc, given, ?_⟩
  have there : (cells routine.items)[index routine.items .scannum + 0]? = some
    (.inst (.trap .getc)) := by
    decide
  rw [Routine.step_at os loaded pc there, Inst.effect, Service.effect, given]

variable (os) in
theorem number_scanned (leaves : Leaves os g) (scanning : Scanning base taken s) :
    match scan taken (s.input.map g) with
    | some (text, rest) =>
      ∃ t, Path os (Buffer base) s t ∧ Scanned base text s t ∧ t.input.map g = rest
    | none => ∃ t, Path os (Buffer base) s t ∧ Waits os base t := by
  generalize given : s.input = input
  induction input generalizing taken s with
  | nil =>
    exact ⟨s, .refl, waits os scanning.loaded scanning.pc given⟩
  | cons c rest ih =>
    obtain ⟨t, path, left, echoed, reg, on⟩ := character_scanned os leaves scanning given
    have later {more : List Byte} (next : Scanning base more t) :
        match scan more (rest.map g) with
        | some (text, rest) =>
          ∃ t, Path os (Buffer base) s t ∧ Scanned base text s t ∧ t.input.map g = rest
        | none => ∃ t, Path os (Buffer base) s t ∧ Waits os base t := by
      have tail := ih next left
      split at tail
      · rename_i text rest' found
        obtain ⟨u, path', scanned, input⟩ := tail
        refine ⟨u, path.trans path',
          ⟨scanned.pc, scanned.loaded, scanned.last, scanned.short, scanned.nonempty,
          scanned.filled, fun i mem => (scanned.reg i mem).trans (reg i mem),
            echoed.trans scanned.echoed⟩, input⟩
      · obtain ⟨u, path', waits⟩ := tail
        exact ⟨u, path.trans path', waits⟩
    rw [List.map_cons, scan]
    split at on
    · rename_i yes
      rw [if_pos yes]
      split at on
      · rename_i full
        rw [if_pos full]
        exact ⟨t, path, on, congrArg (List.map g) left⟩
      · rename_i more
        rw [if_neg more]
        exact later on
    · rename_i no
      rw [if_neg no]
      split at on
      · rename_i empty
        rw [if_pos empty]
        exact later on
      · rename_i some
        rw [if_neg some]
        exact ⟨t, path, on, congrArg (List.map g) left⟩

/-! Whatever the services leave in R0, a character takes the number on, or ends it. -/

/-- A character is read into the buffer at an index. -/
structure Taking (base : Word) (k : Nat) (s : State) : Prop where
  pc : s.pc = routine.place base .scannum 0
  loaded : routine.Loaded base s.machine.mem
  next : s.machine.reg 4 = routine.place base .buf k
  room : k < capacity

theorem Scanning.taking (scanning : Scanning base taken s) : Taking base taken.length s :=
  ⟨scanning.pc, scanning.loaded, scanning.next, scanning.room⟩

/-- Some number was read. -/
structure Taken (base : Word) (s t : State) : Prop where
  pc : t.pc = routine.place base .numdone 0
  loaded : routine.Loaded base t.machine.mem
  reg : ∀ i ∈ [5, 6], t.machine.reg i = s.machine.reg i

variable (os) in
theorem word_judged (loaded : routine.Loaded base s.machine.mem)
    (pc : s.pc = routine.place base .scannum 3) :
    ∃ t, Path os (Buffer base) s t ∧ Kept [0, 7] s t ∧ (t.pc = routine.place base .checkedupper 0 ∨
      t.pc = routine.place base .scannum 9 ∨ t.pc = routine.place base .checkedlower 3) := by
  have upper {s : State} (loaded : routine.Loaded base s.machine.mem)
    (pc : s.pc = routine.place base .checkedlower 0) :
      ∃ t, Path os (Buffer base) s t ∧ Kept [0, 7] s t ∧
        (t.pc = routine.place base .checkedupper 0 ∨
        t.pc = routine.place base .scannum 9 ∨ t.pc = routine.place base .checkedlower 3) := by
    obtain ⟨t, path, pc', machine, kept⟩ :=
      Routine.branch os (Buffer base) loaded pc [ldr 0 4 0, add 0 1 0]
      true true false .checkedupper (by decide) rfl
    refine ⟨t, path, kept.mono (by decide), ?_⟩
    split at pc'
    · exact .inl pc'
    · exact .inr (.inr pc')
  obtain ⟨t, path, pc', machine, kept⟩ := Routine.branch os (Buffer base) loaded pc [add 0 2 0]
    false true true .checkedlower (by decide) rfl
  split at pc'
  · obtain ⟨u, path', kept', on⟩ := upper (kept.mem ▸ loaded) pc'
    exact ⟨u, path.trans path', (kept.mono (by decide)).trans kept', on⟩
  · obtain ⟨u, path', pc'', machine', kept'⟩ :=
      Routine.branch os (Buffer base) (kept.mem ▸ loaded) pc'
      [ldr 0 4 0, ld 7 .minus, add 0 0 7] false true false .checkedlower (by decide) rfl
    have both : Kept [0, 7] s u := (kept.mono (by decide)).trans (kept'.mono (by decide))
    split at pc''
    · obtain ⟨v, path'', kept'', on⟩ := upper (both.mem ▸ loaded) pc''
      exact ⟨v, (path.trans path').trans path'', both.trans kept'', on⟩
    · exact ⟨u, path.trans path', both, .inr (.inl pc'')⟩

variable (os) in
theorem word_taken {k : Nat} (taking : Taking base k s) (input : s.input = c :: rest) :
    ∃ t, Path os (Buffer base) s t ∧ t.input = rest ∧
      (∀ i ∈ [5, 6], t.machine.reg i = s.machine.reg i) ∧
      ((∃ j, Taking base j t) ∨ Taken base s t) := by
  obtain ⟨t₁, path₁, pc₁, -, reg₁, mem₁, input₁, -⟩ :=
    word_stored os (g := id) taking.loaded taking.pc taking.next taking.room input
  have loaded₁ : routine.Loaded base t₁.machine.mem := mem₁ ▸ loaded_buf taking.loaded taking.room
  obtain ⟨t₂, path₂, kept₂, judged⟩ := word_judged os loaded₁ pc₁
  have loaded₂ : routine.Loaded base t₂.machine.mem := kept₂.mem ▸ loaded₁
  have next₂ := ((kept₂.reg 4 (by decide)).trans (reg₁ 4 (by decide))).trans taking.next
  have away : ∀ i : Fin 8, i ∈ [5, 6] → i ∉ [0, 4] ∧ i ∉ [0, 7] := by decide
  have finish {t : State} (path : Path os (Buffer base) t₂ t) (kept : Kept [0, 4] t₂ t) :
      Path os (Buffer base) s t ∧ t.input = rest ∧
        (∀ i ∈ [5, 6], t.machine.reg i = s.machine.reg i) ∧
        routine.Loaded base t.machine.mem := by
    refine ⟨(path₁.trans path₂).trans path, by rw [kept.input, kept₂.input, input₁], fun i mem =>
      ?_,
      kept.mem ▸ loaded₂⟩
    rw [kept.reg i (away i mem).1, kept₂.reg i (away i mem).2, reg₁ i (away i mem).2]
  rcases judged with yes | no
  · obtain ⟨t, path, kept, on⟩ := accepted_goes_on os loaded₂ yes next₂ taking.room
    obtain ⟨whole, left, reg, loaded⟩ := finish path kept
    refine ⟨t, whole, left, reg, ?_⟩
    split at on
    · exact .inr ⟨on.1, loaded, reg⟩
    · have short := taking.room
      exact .inl ⟨k + 1, on.1, loaded, on.2, by omega⟩
  · obtain ⟨t, path, kept, on⟩ : ∃ t, Path os (Buffer base) t₂ t ∧ Kept [0, 4] t₂ t ∧
        if k = 0 then t.pc = routine.place base .scannum 0 ∧ t.machine.reg 4 = t₂.machine.reg 4
        else t.pc = routine.place base .numdone 0 ∧
          t.machine.reg 4 = routine.place base .buf (k - 1) := by
      rcases no with low | high
      · exact rejected os loaded₂ low next₂ taking.room (by decide)
      · exact rejected os loaded₂ high next₂ taking.room (by decide)
    obtain ⟨whole, left, reg, loaded⟩ := finish path kept
    refine ⟨t, whole, left, reg, ?_⟩
    split at on
    · exact .inl ⟨k, on.1, loaded, on.2.trans next₂, taking.room⟩
    · exact .inr ⟨on.1, loaded, reg⟩

variable (os) in
/-- For every service that ends, the number ends, or the input does before it. -/
theorem number_taken {k : Nat} (taking : Taking base k s) :
    ∃ t, Path os (Buffer base) s t ∧ (Taken base s t ∨ Waits os base t) := by
  generalize given : s.input = input
  induction input generalizing k s with
  | nil => exact ⟨s, .refl, .inr (waits os taking.loaded taking.pc given)⟩
  | cons c rest ih =>
    obtain ⟨t, path, left, reg, on⟩ := word_taken os taking given
    rcases on with ⟨j, further⟩ | number
    · obtain ⟨u, path', ends⟩ := ih further left
      refine ⟨u, path.trans path', ends.imp_left fun number =>
        ⟨number.pc, number.loaded, fun i mem => ?_⟩⟩
      exact (number.reg i mem).trans (reg i mem)
    · exact ⟨t, path, .inl number⟩

end

end LC3Tools.Stdio.Scanf
