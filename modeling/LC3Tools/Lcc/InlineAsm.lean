import Mathlib.Data.List.TakeWhile
import LC3Tools.Assembler.Lexer

/-! Inline assembly in lcc: the input buffer of `input.c`, the token in `lex.c`, the statement in
`stmt.c` and what `emit2` prints of it. A pointer is an index into the one static array, and what
lies behind the array is not known. -/
namespace LC3Tools.Lcc.Inline
open Assembler

def maxLine : Nat := 512
def bufSize : Nat := 4096
def maxToken : Nat := 32

/-- `&buffer[MAXLINE+1]`, where a chunk is read to. -/
def base : Nat := maxLine + 1

def arraySize : Nat := base + bufSize + 1

def newline : Byte := byte '\n'
def percent : Byte := byte '%'

/-- The input layer. The character at `limit` is a newline that is not in the file. -/
structure Input where
  buffer : List Byte
  cp : Nat
  limit : Nat
  bsize : Int
  unread : List Byte
  eof : Bool
  sized : buffer.length = arraySize
  low : base ≤ limit
  high : limit < arraySize
  ends : buffer[limit]? = some newline
  drained : bsize = 0 ∨ eof → unread = []

/-- The characters between `cp` and `limit`. -/
def Input.buffered (s : Input) : List Byte := (s.buffer.take s.limit).drop s.cp

/-- What is left of the file. -/
def Input.remaining (s : Input) : List Byte := s.buffered ++ s.unread

/-- The bytes that `fread` puts behind the base. -/
def Input.chunk (s : Input) : List Byte := if s.eof then [] else s.unread.take bufSize

/-- The bytes that `fread` leaves. -/
def Input.later (s : Input) : List Byte := if s.eof then s.unread else s.unread.drop bufSize

/-- The array once the characters still buffered are moved in front of the base and the chunk is
read behind it. -/
def Input.refilled (s : Input) : List Byte :=
  s.buffer.take (base - s.buffered.length) ++ s.buffered ++
    (s.chunk ++ newline :: s.buffer.drop (base + s.chunk.length + 1))

theorem Input.chunk_short (s : Input) : s.chunk.length ≤ bufSize := by
  unfold Input.chunk
  split
  · exact Nat.zero_le _
  · exact List.length_take_le ..

theorem Input.buffered_length (s : Input) : s.buffered.length = s.limit - s.cp := by
  have sized := s.sized
  have high := s.high
  rw [Input.buffered, List.length_drop, List.length_take]
  omega

theorem Input.refilled_front {s : Input} (room : s.buffered.length ≤ base) :
    (s.buffer.take (base - s.buffered.length) ++ s.buffered).length = base := by
  have sized : s.buffer.length = base + bufSize + 1 := s.sized
  rw [List.length_append, List.length_take]
  omega

/-- `fillbuf`, none where its assertion fails. -/
def fillbuf (s : Input) : Option Input :=
  if s.bsize = 0 then some s
  else if room : s.buffered.length ≤ base then
    some {
      buffer := s.refilled
      cp := base - s.buffered.length
      limit := base + s.chunk.length
      bsize := s.chunk.length
      unread := s.later
      eof := s.eof || s.chunk.length < bufSize
      sized := by
        have sized : s.buffer.length = base + bufSize + 1 := s.sized
        have short := s.chunk_short
        rw [Input.refilled, List.length_append, Input.refilled_front room, List.length_append,
          List.length_cons, List.length_drop, arraySize]
        omega
      low := Nat.le_add_right _ _
      high := by
        have short := s.chunk_short
        unfold arraySize
        omega
      ends := by
        have front := Input.refilled_front room
        rw [Input.refilled, List.getElem?_append_right (by omega), front,
          List.getElem?_append_right (by omega)]
        simp
      drained := by
        cases ended : s.eof with
        | true =>
          intro _
          rw [Input.later, ended]
          exact s.drained (.inr ended)
        | false =>
          simp only [Input.chunk, Input.later, ended, Bool.false_or, decide_eq_true_eq,
            List.length_take,
            Bool.false_eq_true, if_false, List.drop_eq_nil_iff]
          have some : 0 < bufSize := by decide
          omega }
  else none

/-- `input_init`, up to `nextline`. -/
def inputInit (source : List Byte) : Option Input :=
  fillbuf {
    buffer := List.replicate base 0 ++ newline :: List.replicate bufSize 0
    cp := base
    limit := base
    bsize := -1
    unread := source
    eof := false
    sized := by simp [arraySize]; omega
    low := Nat.le_refl _
    high := by decide
    ends := by simp
    drained := by simp }

/-- `map[c]&BLANK`. -/
def isBlank (c : Byte) : Bool := c = byte ' ' || c = byte '\t' || c = byte '\x0b' || c = byte '\x0c'

def asmToken : List Byte := bytes "__asm"

/-- `gettok` up to the switch: over the blanks, and a refill where less than a token is left. -/
def gettokStart (s : Input) : Option Input :=
  let rcp := s.cp + ((s.buffer.drop s.cp).takeWhile isBlank).length
  let s := { s with cp := rcp }
  if s.cp ≥ arraySize then none
  else if s.limit < s.cp + maxToken then fillbuf s else some s

/-- `gettok` where it returns ASM. -/
def gettokAsm (s : Input) : Option Input :=
  (gettokStart s).bind fun s =>
    if asmToken <+: s.buffer.drop s.cp ∧
        ((s.buffer.drop (s.cp + asmToken.length)).head?.all fun c => !Pattern.isalnumbar c) then
      some { s with cp := s.cp + asmToken.length }
    else none

/-- The letters behind a percent sign for which `vfprint` takes an argument. -/
def takesArgument (c : Byte) : Bool := (bytes "dDUuoXxfegspcSktwI").contains c

/-- `vfprint` of a format without arguments. None where it takes one, or runs past the zero. -/
def vfprint : List Byte → Option (List Byte)
  | [] => some []
  | c :: fmt =>
    if c = percent then
      match fmt with
      | [] => none
      | d :: fmt => if takesArgument d then none else (vfprint fmt).map (d :: ·)
    else (vfprint fmt).map (c :: ·)

/-- `case ASM` of `statement`, and the text that `emit2` prints for its node. -/
def statementAsm (s : Input) : Option (List Byte × Input) :=
  let cells := s.buffer.drop s.cp
  let blanks := (cells.takeWhile fun c => c = byte ' ' || c = byte '\t').length
  let cells := cells.drop blanks
  let brace := cells.head? = some (byte '{')
  let endChar := if brace then byte '}' else newline
  let opening := blanks + if brace then 1 else 0
  let cells := if brace then cells.tail else cells
  let code := cells.takeWhile fun c => c ≠ endChar && c ≠ 0
  match cells.drop code.length with
  | [] => none
  | c :: _ =>
    let cp := s.cp + opening + code.length + if c = endChar then 1 else 0
    (vfprint code).map fun out => (out ++ [newline], { s with cp := cp })

/-- An asm statement, from the token on. -/
def compileAsm (s : Input) : Option (List Byte × Input) := (gettokAsm s).bind statementAsm

/-- The blanks behind the token and the brace, if there is one, with the delimiter that belongs to
them. -/
structure Opening (lead : List Byte) (delimiter : Byte) (text : List Byte) : Prop where
  forms : ∃ blanks : List Byte, (∀ c ∈ blanks, c = byte ' ' ∨ c = byte '\t') ∧
    (lead = blanks ++ [byte '{'] ∧ delimiter = byte '}' ∨
      lead = blanks ∧ delimiter = newline ∧
        ∀ c ∈ text.head?, c ≠ byte ' ' ∧ c ≠ byte '\t' ∧ c ≠ byte '{')

/-- What is left of a file at an asm statement. -/
structure Statement (s : Input) (lead text : List Byte) (delimiter : Byte) (after : List Byte) :
    Prop where
  source : s.remaining = asmToken ++ (lead ++ (text ++ delimiter :: after))
  token : ∀ c ∈ (lead ++ (text ++ delimiter :: after)).head?, Pattern.isalnumbar c = false
  opening : Opening lead delimiter text
  inner : delimiter ∉ text

/-- The text comes out unchanged with one newline behind it, and the lexer goes on behind the
delimiter. -/
def PassesThrough (s : Input) (text after : List Byte) : Prop :=
  ∃ s', compileAsm s = some (text ++ [newline], s') ∧ s'.remaining = after

/-- The delimiter is in the buffer when `gettok` gets to the token. -/
def Fits (s : Input) (length : Nat) : Prop :=
  ∃ t, gettokStart s = some t ∧ asmToken.length + length < t.limit - t.cp

/-! The input layer loses nothing. -/

theorem refilled_buffered (s : Input) (room : s.buffered.length ≤ base) :
    (s.refilled.take (base + s.chunk.length)).drop (base - s.buffered.length) =
      s.buffered ++ s.chunk := by
  have sized : s.buffer.length = base + bufSize + 1 := s.sized
  have start : (s.buffer.take (base - s.buffered.length)).length = base - s.buffered.length := by
    rw [List.length_take]
    omega
  have front := Input.refilled_front room
  have whole : s.refilled.take (base + s.chunk.length) =
      s.buffer.take (base - s.buffered.length) ++ s.buffered ++ s.chunk := by
    rw [Input.refilled, ← List.append_assoc]
    exact List.take_left' (by rw [List.length_append, front])
  rw [whole, List.append_assoc]
  exact List.drop_left' start

theorem chunk_later (s : Input) : s.chunk ++ s.later = s.unread := by
  unfold Input.chunk Input.later
  split
  · rfl
  · exact List.take_append_drop ..

theorem later_nil_or_full (s : Input) : s.later = [] ∨ bufSize ≤ s.chunk.length := by
  unfold Input.chunk Input.later
  split
  · rename_i ended
    exact .inl (s.drained (.inr ended))
  · rw [List.drop_eq_nil_iff, List.length_take]
    omega

theorem fillbuf_remaining {s t : Input} (filled : fillbuf s = some t) :
    t.remaining = s.remaining ∧ (t.unread = [] ∨ bufSize ≤ t.limit - t.cp) := by
  unfold fillbuf at filled
  split at filled
  · rename_i done
    cases filled
    exact ⟨rfl, .inl (s.drained (.inl done))⟩
  · split at filled
    · rename_i room
      cases filled
      refine ⟨?_, ?_⟩
      · change (s.refilled.take (base + s.chunk.length)).drop
          (base - s.buffered.length) ++ s.later =
          s.buffered ++ s.unread
        rw [refilled_buffered s room, List.append_assoc, chunk_later]
      · change s.later = [] ∨ bufSize ≤ base + s.chunk.length - (base - s.buffered.length)
        rcases later_nil_or_full s with ended | full
        · exact .inl ended
        · exact .inr (by omega)
    · cases filled

theorem fillbuf_some {s : Input} (room : s.buffered.length ≤ base) : ∃ t, fillbuf s = some t := by
  unfold fillbuf
  split <;> exact ⟨_, rfl⟩

theorem inputInit_remaining {source : List Byte} {s : Input} (started : inputInit source = some s) :
    s.remaining = source := by
  rw [(fillbuf_remaining started).1]
  simp [Input.remaining, Input.buffered]

/-- Where the lexer may stand in a file: `cp` moves inside the buffer, and the asm statement moves
it by its own rule. -/
inductive Reached (source : List Byte) : Input → Prop where
  | init {s : Input} (started : inputInit source = some s) : Reached source s
  | refill {s t : Input} (here : Reached source s) (filled : fillbuf s = some t) : Reached source t
  | advance {s : Input} (here : Reached source s) (n : Nat) (inside : s.cp + n ≤ s.limit) :
      Reached source { s with cp := s.cp + n }
  | asm {s t : Input} {out : List Byte} (here : Reached source s)
      (compiled : compileAsm s = some (out, t)) : Reached source t


section
variable {s t : Input} {lead text after : List Byte} {delimiter : Byte}

theorem buffered_advance (s : Input) (n : Nat) :
    ({ s with cp := s.cp + n } : Input).buffered = s.buffered.drop n := by
  simp only [Input.buffered, List.drop_drop]

theorem cells_buffered (s : Input) (inside : s.cp ≤ s.limit) :
    s.buffer.drop s.cp = s.buffered ++ s.buffer.drop s.limit := by
  have high := s.high
  have sized := s.sized
  have whole : s.buffer = s.buffer.take s.limit ++ s.buffer.drop s.limit :=
    (List.take_append_drop ..).symm
  have length : (s.buffer.take s.limit).length = s.limit := by
    rw [List.length_take]
    omega
  calc s.buffer.drop s.cp
      = (s.buffer.take s.limit ++ s.buffer.drop s.limit).drop s.cp := by rw [← whole]
    _ = s.buffered ++ s.buffer.drop s.limit := by
      rw [List.drop_append_of_le_length (by omega), Input.buffered]

theorem cells_head (s : Input) : (s.buffer.drop s.limit).head? = some newline := by
  rw [List.head?_drop]
  exact s.ends

theorem no_blanks {c : Byte} {cs : List Byte} (left : s.remaining = c :: cs)
    (printed : isBlank c = false) (inside : s.cp ≤ s.limit) :
    (s.buffer.drop s.cp).takeWhile isBlank = [] := by
  have stops : ∀ d ∈ (s.buffer.drop s.cp).head?, isBlank d = false := by
    intro d first
    rw [cells_buffered s inside, List.head?_append] at first
    cases here : s.buffered with
    | nil =>
      rw [here, cells_head] at first
      cases first
      decide
    | cons e es =>
      rw [Input.remaining, here] at left
      obtain ⟨rfl, -⟩ := List.cons.inj left
      rw [here] at first
      cases first
      exact printed
  cases cells : s.buffer.drop s.cp with
  | nil => rfl
  | cons d ds => simp [stops d (by simp [cells])]

/-- The refill leaves a whole token in the buffer unless the file ends. -/
theorem gettokStart_remaining {c : Byte} {cs : List Byte} (left : s.remaining = c :: cs)
    (printed : isBlank c = false) (started : gettokStart s = some t) :
    t.remaining = s.remaining ∧ (t.unread = [] ∨ maxToken ≤ t.limit - t.cp) := by
  have kept : ({ s with cp := s.cp + ((s.buffer.drop s.cp).takeWhile isBlank).length } :
      Input).remaining
      = s.remaining := by
    simp only [Input.remaining, buffered_advance]
    congr 1
    by_cases inside : s.cp ≤ s.limit
    · rw [no_blanks left printed inside]
      rfl
    · have length := s.buffered_length
      have empty : s.buffered = [] := List.eq_nil_of_length_eq_zero (by omega)
      rw [empty, List.drop_nil]
  simp only [gettokStart] at started
  split at started
  · cases started
  · split at started
    · obtain ⟨same, full⟩ := fillbuf_remaining started
      have more : maxToken ≤ bufSize := by decide
      exact ⟨same.trans kept, full.imp_right fun enough => by omega⟩
    · cases started
      exact ⟨kept, .inr (by dsimp only at *; omega)⟩

theorem buffered_front {front : List Byte} (left : t.remaining = front ++ delimiter :: after)
    (fits : front.length < t.limit - t.cp) :
    (∃ more, t.buffer.drop t.cp = front ++ delimiter :: more) ∧
      ({ t with cp := t.cp + (front.length + 1) } : Input).remaining = after := by
  have length := t.buffered_length
  have split : t.buffered = front ++ delimiter :: after.take
    (t.buffered.length - (front.length + 1)) := by
    have taken : t.buffered = (front ++ delimiter :: after).take t.buffered.length := by
      rw [← left, Input.remaining]
      exact (List.take_left).symm
    rw [List.take_append, List.take_of_length_le (by omega)] at taken
    rw [show t.buffered.length - front.length = t.buffered.length - (front.length + 1) + 1 by omega,
      List.take_succ_cons] at taken
    exact taken
  constructor
  · refine ⟨after.take (t.buffered.length - (front.length + 1)) ++ t.buffer.drop t.limit, ?_⟩
    rw [cells_buffered t (by omega)]
    calc t.buffered ++ t.buffer.drop t.limit
        = (front ++ delimiter :: after.take (t.buffered.length - (front.length + 1))) ++
            t.buffer.drop t.limit := by rw [← split]
      _ = _ := by simp
  · have dropped : t.remaining.drop (front.length + 1) = after := by
      rw [left]
      simp
    rw [← dropped, Input.remaining, Input.remaining, buffered_advance,
      List.drop_append_of_le_length (by omega)]

theorem vfprint_plain {fmt : List Byte} (plain : percent ∉ fmt) : vfprint fmt = some fmt := by
  induction fmt with
  | nil => rfl
  | cons c fmt ih =>
    rw [List.mem_cons, not_or] at plain
    rw [vfprint.eq_def]
    simp only [if_neg (Ne.symm plain.1), ih plain.2, Option.map_some]

theorem vfprint_length {fmt out : List Byte} (printed : vfprint fmt = some out) :
    out.length ≤ fmt.length ∧ (percent ∈ fmt → out.length < fmt.length) := by
  induction fmt using vfprint.induct generalizing out with
  | case1 =>
    cases printed
    simp
  | case2 => simp [vfprint] at printed
  | case3 d fmt takes => simp [vfprint, takes] at printed
  | case4 d fmt takes ih =>
    rw [vfprint.eq_def] at printed
    simp only [if_true, if_neg takes, Option.map_eq_some_iff] at printed
    obtain ⟨rest, behind, rfl⟩ := printed
    have shorter := (ih behind).1
    simp only [List.length_cons]
    omega
  | case5 c fmt other ih =>
    rw [vfprint.eq_def] at printed
    simp only [if_neg other, Option.map_eq_some_iff] at printed
    obtain ⟨rest, behind, rfl⟩ := printed
    obtain ⟨less, strictly⟩ := ih behind
    refine ⟨Nat.succ_le_succ less, fun inside => ?_⟩
    rcases List.mem_cons.mp inside with here | inside
    · exact absurd here.symm other
    · exact Nat.succ_lt_succ (strictly inside)

theorem takeWhile_stops {p : Byte → Bool} {front rest : List Byte} (all : ∀ c ∈ front, p c)
    (stop : ∀ c ∈ rest.head?, p c = false) : (front ++ rest).takeWhile p = front := by
  rw [List.takeWhile_append_of_pos all]
  cases rest with
  | nil => simp
  | cons c rest => simp [stop c (by simp)]

theorem code_text (more : List Byte) (inner : delimiter ∉ text) :
    ((text ++ delimiter :: more).takeWhile fun c => c ≠ delimiter && c ≠ 0) = text.takeWhile
    (· ≠ 0) ∧
      ∃ c rest, (text ++ delimiter :: more).drop (text.takeWhile (· ≠ 0)).length = c :: rest ∧
        (c = delimiter ↔ 0 ∉ text) := by
  induction text with
  | nil => exact ⟨by simp, delimiter, more, rfl, by simp⟩
  | cons c text ih =>
    rw [List.mem_cons, not_or] at inner
    by_cases zero : c = 0
    · have apart : ¬ (0 : Byte) = delimiter := fun same => inner.1 (zero ▸ same.symm)
      subst zero
      exact ⟨by simp, 0, text ++ delimiter :: more, by simp, by simpa using apart⟩
    · obtain ⟨same, d, rest, behind, exactly⟩ := ih inner.2
      have other : (decide (c ≠ delimiter) && decide (c ≠ 0)) = true := by
        rw [Bool.and_eq_true, decide_eq_true_eq, decide_eq_true_eq]
        exact ⟨Ne.symm inner.1, zero⟩
      have some : decide (c ≠ 0) = true := decide_eq_true zero
      refine ⟨?_, d, rest, ?_, ?_⟩
      · rw [List.cons_append, List.takeWhile_cons, if_pos other, List.takeWhile_cons,
          if_pos some, same]
      · rw [List.takeWhile_cons, if_pos some]
        exact behind
      · rw [exactly, List.mem_cons, not_or]
        exact ⟨fun none => ⟨Ne.symm zero, none⟩, fun none => none.2⟩

theorem statementAsm_text {more : List Byte} (opening : Opening lead delimiter text)
    (inner : delimiter ∉ text) (cells : s.buffer.drop s.cp = lead ++ (text ++ delimiter :: more)) :
    statementAsm s = (vfprint (text.takeWhile (· ≠ 0))).map fun out => (out ++ [newline],
      { s with
        cp := s.cp + lead.length + (text.takeWhile (· ≠ 0)).length + if 0 ∈ text then 0
          else 1 }) := by
  obtain ⟨code, c, rest, behind, stopped⟩ := code_text more inner
  have stop : (if c = delimiter then 1 else 0) = if 0 ∈ text then 0 else 1 := by
    by_cases zero : 0 ∈ text
    · rw [if_neg (by simpa [stopped] using zero), if_pos zero]
    · rw [if_pos (stopped.mpr zero), if_neg zero]
  obtain ⟨blanks, all, ⟨rfl, rfl⟩ | ⟨rfl, rfl, plain⟩⟩ := opening.forms
  · have skipped : ((blanks ++ (byte '{' :: (text ++ byte '}' :: more))).takeWhile
        fun c => c = byte ' ' || c = byte '\t') = blanks := by
      refine takeWhile_stops (fun c inside => by simpa using all c inside) ?_
      simp
      decide
    rw [List.append_assoc, List.singleton_append] at cells
    simp only [statementAsm, cells, skipped, List.drop_left, List.head?_cons, if_true,
      List.tail_cons,
      code, behind, stop, List.length_append, List.length_singleton]
  · have skipped : ((lead ++ (text ++ newline :: more)).takeWhile
        fun c => c = byte ' ' || c = byte '\t') = lead := by
      refine takeWhile_stops (fun c inside => by simpa using all c inside) ?_
      cases text with
      | nil =>
        simp
        decide
      | cons c text =>
        have printed := plain c (by simp)
        simp [printed.1, printed.2.1]
    have brace : ¬ (text ++ newline :: more).head? = some (byte '{') := by
      cases text with
      | nil =>
        simp
        decide
      | cons c text =>
        have printed := plain c (by simp)
        simp [printed.2.2]
    simp only [statementAsm, cells, skipped, List.drop_left, if_neg brace, code, behind, stop,
      Nat.add_zero]

/-- The state behind the statement, whose loop stopped behind that many characters of the text. -/
def Input.behind (t : Input) (lead text : List Byte) : Input :=
  { t with
    cp := t.cp + asmToken.length + lead.length + (text.takeWhile (· ≠ 0)).length +
      if 0 ∈ text then 0 else 1 }

theorem compileAsm_fits (statement : Statement s lead text delimiter after)
    (started : gettokStart s = some t)
    (fits : asmToken.length + (lead.length + text.length) < t.limit - t.cp) :
    compileAsm s = (vfprint (text.takeWhile (· ≠ 0))).map fun out =>
      (out ++ [newline], t.behind lead text) := by
  have same := (gettokStart_remaining statement.source (by decide) started).1
  rw [statement.source] at same
  have left : t.remaining = (asmToken ++ (lead ++ text)) ++ delimiter :: after := by
    rw [same, List.append_assoc, List.append_assoc]
  obtain ⟨⟨more, cells⟩, -⟩ := buffered_front left (by simpa using fits)
  have behind : t.buffer.drop (t.cp + asmToken.length) = lead ++ (text ++ delimiter :: more) := by
    rw [← List.drop_drop, cells, List.append_assoc, List.drop_left, List.append_assoc]
  have token : gettokAsm s = some { t with cp := t.cp + asmToken.length } := by
    have next : (t.buffer.drop (t.cp + asmToken.length)).head? =
        (lead ++ (text ++ delimiter :: after)).head? := by
      rw [behind]
      cases lead with
      | nil => cases text <;> rfl
      | cons c lead => rfl
    have plain : ((t.buffer.drop (t.cp + asmToken.length)).head?.all
        fun c => !Pattern.isalnumbar c) = true := by
      rw [next, Option.all_eq_true]
      intro c inside
      rw [statement.token c inside]
      rfl
    have whole : asmToken <+: t.buffer.drop t.cp := ⟨_, by rw [cells, List.append_assoc]⟩
    rw [gettokAsm, started, Option.bind_some, if_pos ⟨whole, plain⟩]
  rw [compileAsm, token, Option.bind_some]
  exact statementAsm_text statement.opening statement.inner behind

theorem statementAsm_moves {out : List Byte} {u : Input} (asm : statementAsm s = some (out, u)) :
    ∃ n, u = { s with cp := s.cp + n } := by
  simp only [statementAsm] at asm
  split at asm
  · cases asm
  · rw [Option.map_eq_some_iff] at asm
    obtain ⟨code, -, same⟩ := asm
    rw [← (Prod.mk.inj same).2]
    simp only [Nat.add_assoc]
    exact ⟨_, rfl⟩

theorem compileAsm_moves {out : List Byte} {u : Input} (compiled : compileAsm s = some (out, u)) :
    ∃ t n, gettokStart s = some t ∧ u = { t with cp := t.cp + n } := by
  simp only [compileAsm, gettokAsm, Option.bind_eq_some_iff] at compiled
  obtain ⟨v, ⟨t, started, token⟩, asm⟩ := compiled
  obtain ⟨n, rfl⟩ := statementAsm_moves asm
  split at token
  · cases token
    exact ⟨t, asmToken.length + n, started, by simp only [Nat.add_assoc]⟩
  · cases token

theorem cut_whole (zero : 0 ∉ text) : text.takeWhile (· ≠ 0) = text := by
  rw [List.takeWhile_eq_self_iff]
  intro c inside
  exact decide_eq_true fun same => zero (same ▸ inside)

theorem cut_shorter (zero : 0 ∈ text) : (text.takeWhile (· ≠ 0)).length < text.length := by
  have front := List.takeWhile_prefix (l := text) (fun c : Byte => decide (c ≠ 0))
  refine Nat.lt_of_le_of_ne front.length_le fun same => ?_
  have whole := List.takeWhile_eq_self_iff.mp (front.eq_of_length same) 0 zero
  exact of_decide_eq_true whole rfl

theorem behind_remaining (left : t.remaining = asmToken ++ (lead ++ (text ++ delimiter :: after)))
    (fits : asmToken.length + (lead.length + text.length) < t.limit - t.cp) (zero : 0 ∉ text) :
    (t.behind lead text).remaining = after := by
  have left : t.remaining = (asmToken ++ (lead ++ text)) ++ delimiter :: after := by
    rw [left, List.append_assoc, List.append_assoc]
  have rest := (buffered_front left (by simpa using fits)).2
  have here : t.cp + asmToken.length + lead.length + text.length + 1 =
      t.cp + ((asmToken ++ (lead ++ text)).length + 1) := by
    rw [List.length_append, List.length_append]
    omega
  rw [← rest]
  simp only [Input.behind, cut_whole zero, if_neg zero, here]

/-- An asm statement passes through unchanged exactly where its delimiter is in the buffer and its
text has neither a percent sign nor a zero. -/
theorem passes_iff (statement : Statement s lead text delimiter after) :
    PassesThrough s text after ↔
      Fits s (lead.length + text.length) ∧ percent ∉ text ∧ 0 ∉ text := by
  constructor
  · rintro ⟨u, compiled, rest⟩
    obtain ⟨t, n, started, moved⟩ := compileAsm_moves compiled
    have unread : u.unread = t.unread := by rw [moved]
    have fits : asmToken.length + (lead.length + text.length) < t.limit - t.cp := by
      have same := (gettokStart_remaining statement.source (by decide) started).1
      have total := congrArg List.length (same.trans statement.source)
      have behind := congrArg List.length rest
      have length := t.buffered_length
      simp only [Input.remaining, List.length_append, List.length_cons, unread] at total behind
      omega
    have printed := compileAsm_fits statement started fits
    rw [compiled, eq_comm, Option.map_eq_some_iff] at printed
    obtain ⟨out, said, same⟩ := printed
    obtain ⟨same, -⟩ := Prod.mk.inj same
    have same : out = text := List.append_cancel_right same
    have zero : 0 ∉ text := by
      intro zero
      have less := (vfprint_length said).1
      have shorter := cut_shorter zero
      rw [same] at less
      omega
    have whole := cut_whole zero
    refine ⟨⟨t, started, fits⟩, fun sign => ?_, zero⟩
    have less := (vfprint_length said).2
    rw [whole, same] at less
    exact absurd (less sign) (Nat.lt_irrefl _)
  · rintro ⟨⟨t, started, fits⟩, plain, zero⟩
    refine ⟨t.behind lead text, ?_, ?_⟩
    · rw [compileAsm_fits statement started fits, cut_whole zero, vfprint_plain plain]
      rfl
    · have same := (gettokStart_remaining statement.source (by decide) started).1
      exact behind_remaining (same.trans statement.source) fits zero

end

theorem short_fits {s : Input} {lead text after : List Byte} {delimiter : Byte}
    (statement : Statement s lead text delimiter after) (inside : s.cp ≤ s.limit)
    (short : asmToken.length + (lead.length + text.length) < maxToken) :
    Fits s (lead.length + text.length) := by
  have high := s.high
  have total := congrArg List.length statement.source
  obtain ⟨t, started⟩ : ∃ t, gettokStart s = some t := by
    simp only [gettokStart, no_blanks statement.source (by decide) inside, List.length_nil,
      Nat.add_zero]
    rw [if_neg (by omega)]
    split
    · have length := s.buffered_length
      have room : s.buffered.length ≤ base := by
        have far : maxToken ≤ base := by decide
        omega
      exact fillbuf_some room
    · exact ⟨_, rfl⟩
  obtain ⟨same, full⟩ := gettokStart_remaining statement.source (by decide) started
  refine ⟨t, started, ?_⟩
  rcases full with ended | enough
  · have length := t.buffered_length
    rw [← same] at total
    simp only [Input.remaining, ended, List.length_append, List.length_cons,
      List.length_nil] at total
    omega
  · omega

theorem advance_suffix (s : Input) (n : Nat) :
    ({ s with cp := s.cp + n } : Input).remaining <:+ s.remaining := by
  rw [Input.remaining, buffered_advance]
  obtain ⟨front, whole⟩ := List.drop_suffix n s.buffered
  exact ⟨front, by rw [Input.remaining, ← List.append_assoc, whole]⟩

theorem gettokStart_suffix {s t : Input} (started : gettokStart s = some t) :
    t.remaining <:+ s.remaining := by
  simp only [gettokStart] at started
  split at started
  · cases started
  · split at started
    · rw [(fillbuf_remaining started).1]
      exact advance_suffix s _
    · cases started
      exact advance_suffix s _

theorem reached_suffix {source : List Byte} {s : Input} (reached : Reached source s) :
    s.remaining <:+ source := by
  induction reached with
  | init started => rw [inputInit_remaining started]
  | refill here filled ih => rw [(fillbuf_remaining filled).1]; exact ih
  | advance here n inside ih => exact (advance_suffix _ n).trans ih
  | asm here compiled ih =>
    obtain ⟨t, n, started, rfl⟩ := compileAsm_moves compiled
    exact ((advance_suffix t n).trans (gettokStart_suffix started)).trans ih

/-- In every file and wherever the lexer comes to it, an asm statement passes through unchanged
exactly where its delimiter is in the buffer with it and its text has neither a percent sign nor a
zero. -/
theorem asm_passes_iff (source : List Byte) (s : Input) (lead text after : List Byte)
    (delimiter : Byte) (reached : Reached source s)
    (statement : Statement s lead text delimiter after) :
    s.remaining <:+ source ∧
      (PassesThrough s text after ↔
        Fits s (lead.length + text.length) ∧ percent ∉ text ∧ 0 ∉ text) :=
  ⟨reached_suffix reached, passes_iff statement⟩

theorem statement_at_start {source lead text after : List Byte} {delimiter : Byte} {s : Input}
    (started : inputInit source = some s)
    (whole : source = asmToken ++ (lead ++ (text ++ delimiter :: after)))
    (token : ∀ c ∈ (lead ++ (text ++ delimiter :: after)).head?, Pattern.isalnumbar c = false)
    (opening : Opening lead delimiter text) (inner : delimiter ∉ text) :
    Statement s lead text delimiter after :=
  ⟨(inputInit_remaining started).trans whole, token, opening, inner⟩

theorem inputInit_some (source : List Byte) : ∃ s, inputInit source = some s :=
  fillbuf_some (by simp [Input.buffered])

theorem asm_passes_iff_nop : ∃ s, Reached (bytes "__asm NOP\n") s ∧
    (PassesThrough s (bytes "NOP") [] ↔
      Fits s ((bytes " ").length + (bytes "NOP").length) ∧ percent ∉ bytes "NOP" ∧
        0 ∉ bytes "NOP") := by
  obtain ⟨s, started⟩ := inputInit_some (bytes "__asm NOP\n")
  have statement : Statement s (bytes " ") (bytes "NOP") newline [] :=
    statement_at_start started (by decide) (by decide)
      ⟨bytes " ", by decide, .inr ⟨rfl, rfl, by decide⟩⟩ (by decide)
  exact ⟨s, .init started, (asm_passes_iff _ s _ _ _ _ (.init started) statement).2⟩

theorem percent_lost : ¬ ∀ (source : List Byte) (s : Input) (lead text after : List Byte)
    (delimiter : Byte), Reached source s → Statement s lead text delimiter after →
    PassesThrough s text after := by
  intro all
  obtain ⟨s, started⟩ := inputInit_some (bytes "__asm ; 5% x\n")
  have statement : Statement s (bytes " ") (bytes "; 5% x") newline [] :=
    statement_at_start started (by decide) (by decide)
      ⟨bytes " ", by decide, .inr ⟨rfl, rfl, by decide⟩⟩ (by decide)
  have passes := all _ s _ _ _ _ (.init started) statement
  exact (passes_iff statement).mp passes |>.2.1 (by decide)

end LC3Tools.Lcc.Inline
