import LC3Tools.Lcc.CheckLdr

/-! The loop of `lc3pp` that replaces the lines `.LC3GLOBAL`, and what it makes of a name that
no variable has. -/
namespace LC3Tools.Emit
open Assembler

/-- An entry of `g_vars`. -/
structure Variable where
  name : List Byte
  size : Int
  deriving DecidableEq

/-- What stands on a line `.LC3GLOBAL`. -/
structure Reference where
  name : List Byte
  offset : Int
  reg : Fin 8
  deriving DecidableEq

def isSign (c : Byte) : Bool := c = byte '+' || c = byte '-'

/-- `while (*s == '+' || *s == '-') var_offset += strtol(s, &s, 10);`, which stays where it is at
a sign without a digit behind it. -/
def readOffsets (sum : Int) : List Byte → Option (Int × List Byte)
  | [] => some (sum, [])
  | c :: rest =>
    if isSign c then
      let digits := rest.takeWhile isdigit
      if digits = [] then none
      else
        let v : Int := digitsValue 10 digits
        readOffsets (BitVec.ofInt 32 (sum + asInt (if c = byte '-' then -v else v))).toInt
          (rest.dropWhile isdigit)
    else some (sum, c :: rest)
termination_by line => line.length
decreasing_by
  have shorter := (List.dropWhile_suffix isdigit (l := rest)).length_le
  simp only [List.length_cons]
  omega

/-- A blank and the number of a register, as the back end prints it. -/
def readReg : List Byte → Option (Fin 8)
  | [blank, digit] =>
    if blank = byte ' ' then (List.finRange 8).find? fun n => regLetter n = digit else none
  | _ => none

/-- No result stands for a line that fails one of the assertions, or on which the search for a
delimiter or an offset does not end. -/
def readReference (line : List Byte) : Option Reference :=
  let s := line.drop 11
  let name := s.takeWhile fun c => !(c = byte ' ' || isSign c)
  (readOffsets 0 (s.drop name.length)).bind fun (offset, s) => (readReg s).map fun reg =>
  ⟨name, offset, reg⟩

/-- `for(i=0; i<g_num; i++)`, where `g_num` is the index of the last variable. -/
def globOffset : List Variable → List Byte → Int
  | [], _ => 0
  | [_], _ => 0
  | v :: w :: rest, name => if v.name = name then 0 else v.size + globOffset (w :: rest) name

/-- What is written: a line as it is, or the access to a variable, with the name and the offsets
of the comment. -/
inductive Piece where
  | line (text : List Byte)
  | access (withLDR : Bool) (name : List Byte) (varOffset globOffset : Int) (code : List Line)

def access (table : List Variable) (r : Reference) (load : Option Int) : Piece :=
  let varOffset := r.offset + load.getD 0
  let offset := globOffset table r.name
  .access load.isSome r.name varOffset offset
    (calculateAddress r.reg 4 (varOffset + offset) load.isSome)

def isEnd (line : List Byte) : Bool := bytes ".END" <+: line
def isReference (line : List Byte) : Bool := bytes ".LC3GLOBAL" <+: line

/-- The loop over the lines of the code. It does not end without a line `.END`. -/
def replaceReferences (table : List Variable) : List (List Byte) → Option (List Piece)
  | [] => none
  | line :: rest =>
    if isEnd line then some []
    else if isReference line then
      match readReference line, rest with
      | none, _ => none
      | some _, [] => none
      | some r, next :: behind =>
        let load := checkLdr next r.reg
        if load.isSome then (replaceReferences table behind).map (access table r load :: ·)
        else (replaceReferences table (next :: behind)).map (access table r load :: ·)
    else (replaceReferences table rest).map (.line line :: ·)
termination_by lines => lines.length

def Declared (table : List Variable) (name : List Byte) : Prop := ∃ v ∈ table, v.name = name

/-- Every reference can be read, and the code has an end. -/
structure Formed (code : List (List Byte)) : Prop where
  references : ∀ line ∈ code, isReference line → (readReference line).isSome
  ends : ∃ line ∈ code, isEnd line

section
variable {table : List Variable} {name : List Byte} {code : List (List Byte)} {line : List Byte}
  {r : Reference}

theorem globOffset_undeclared (undeclared : ¬ Declared table name) :
    globOffset table name = (table.dropLast.map Variable.size).sum := by
  induction table with
  | nil => rfl
  | cons v rest ih =>
    cases rest with
    | nil => rfl
    | cons w rest =>
      have other : v.name ≠ name := fun same => undeclared ⟨v, List.mem_cons_self .., same⟩
      have further := ih fun ⟨u, mem, same⟩ => undeclared ⟨u, List.mem_cons_of_mem _ mem, same⟩
      rw [globOffset, if_neg other, further]
      rfl

theorem dot_of_prefix (word : List Byte) (found : byte '.' :: word <+: line) :
    line.head? = some (byte '.') := by
  obtain ⟨rest, rfl⟩ := found
  rfl

theorem dot_of_isEnd (ends : isEnd line) : line.head? = some (byte '.') :=
  dot_of_prefix (bytes "END") (of_decide_eq_true ends)

theorem dot_of_isReference (reference : isReference line) : line.head? = some (byte '.') :=
  dot_of_prefix (bytes "LC3GLOBAL") (of_decide_eq_true reference)

theorem checkLdr_dot {n : Fin 8} (dot : line.head? = some (byte '.')) : checkLdr line n = none := by
  cases line with
  | nil => cases dot
  | cons c rest =>
    cases Option.some.inj dot
    have here : (byte '.' :: rest).dropWhile isspace = byte '.' :: rest :=
      List.dropWhile_cons_of_neg (by decide)
    rw [checkLdr, here]
    rfl

theorem Formed.rest {rest : List (List Byte)} (formed : Formed (line :: rest))
    (other : ¬ isEnd line) :
    Formed rest where
  references l mem := formed.references l (List.mem_cons_of_mem _ mem)
  ends := by
    obtain ⟨l, mem, last⟩ := formed.ends
    rcases List.mem_cons.mp mem with rfl | later
    · exact absurd last other
    · exact ⟨l, later, last⟩

/-- The pieces have an access for every reference up to the end. -/
def Covers (table : List Variable) (code : List (List Byte)) (pieces : List Piece) : Prop :=
  ∀ front line back, code = front ++ line :: back → (∀ l ∈ front, ¬ isEnd l) → isReference line →
    ∃ r load, readReference line = some r ∧ access table r load ∈ pieces

theorem Covers.cons {rest : List (List Byte)} {piece : Piece} {pieces : List Piece}
    (covers : Covers table rest pieces)
    (here : isReference line → ∃ r load, readReference line = some r ∧
      access table r load = piece) :
    Covers table (line :: rest) (piece :: pieces) := by
  intro front l back split running reference
  cases front with
  | nil =>
    cases split
    obtain ⟨r, load, read, rfl⟩ := here reference
    exact ⟨r, load, read, List.mem_cons_self ..⟩
  | cons first front =>
    cases split
    obtain ⟨r, load, read, mem⟩ :=
      covers front l back rfl (fun x mem => running x (List.mem_cons_of_mem _ mem)) reference
    exact ⟨r, load, read, List.mem_cons_of_mem _ mem⟩

theorem Covers.skip {rest : List (List Byte)} {pieces : List Piece}
    (covers : Covers table rest pieces)
    (plain : ¬ isReference line) : Covers table (line :: rest) pieces := by
  intro front l back split running reference
  cases front with
  | nil =>
    cases split
    exact absurd reference plain
  | cons first front =>
    cases split
    exact covers front l back rfl (fun x mem => running x (List.mem_cons_of_mem _ mem)) reference

theorem not_isEnd (reference : isReference line) : ¬ isEnd line := by
  intro last
  obtain ⟨rest, rfl⟩ := of_decide_eq_true reference
  obtain ⟨rest', same⟩ := of_decide_eq_true last
  have second : some (byte 'E') = some (byte 'L') := congrArg (·[1]?) same
  exact absurd second (by decide)

theorem replaceReferences_cons (rest : List (List Byte)) : replaceReferences table (line :: rest) =
    if isEnd line then some []
    else if isReference line then
      match readReference line, rest with
      | none, _ => none
      | some _, [] => none
      | some r, next :: behind =>
        let load := checkLdr next r.reg
        if load.isSome then (replaceReferences table behind).map (access table r load :: ·)
        else (replaceReferences table (next :: behind)).map (access table r load :: ·)
    else (replaceReferences table rest).map (.line line :: ·) := by
  rw [replaceReferences.eq_def]

theorem replaceReferences_formed (formed : Formed code) :
    ∃ pieces, replaceReferences table code = some pieces ∧ Covers table code pieces := by
  induction code using replaceReferences.induct with
  | case1 =>
    obtain ⟨l, mem, -⟩ := formed.ends
    cases mem
  | case2 line rest last =>
    refine ⟨[], by rw [replaceReferences_cons, if_pos last], ?_⟩
    intro front l back split running reference
    cases front with
    | nil =>
      cases split
      exact absurd last (not_isEnd reference)
    | cons first front =>
      cases split
      exact absurd last (running _ (List.mem_cons_self ..))
  | case3 line rest other reference unread =>
    have read := formed.references line (List.mem_cons_self ..) reference
    rw [unread] at read
    cases read
  | case4 line other reference r read =>
    obtain ⟨l, mem, -⟩ := (formed.rest other).ends
    cases mem
  | case5 line other reference r next behind read load loads ih =>
    have dark : ¬ isReference next := by
      intro dot
      rw [show load = none from checkLdr_dot (dot_of_isReference dot)] at loads
      cases loads
    have running : ¬ isEnd next := by
      intro dot
      rw [show load = none from checkLdr_dot (dot_of_isEnd dot)] at loads
      cases loads
    obtain ⟨pieces, replaced, covers⟩ := ih ((formed.rest other).rest running)
    refine ⟨access table r load :: pieces, ?_, ?_⟩
    · rw [replaceReferences_cons, if_neg other, if_pos reference, read]
      simp only [show checkLdr next r.reg = load from rfl, if_pos loads, replaced, Option.map_some]
    · exact (covers.skip dark).cons fun _ => ⟨r, load, read, rfl⟩
  | case6 line other reference r next behind read load plain ih =>
    obtain ⟨pieces, replaced, covers⟩ := ih (formed.rest other)
    refine ⟨access table r load :: pieces, ?_, ?_⟩
    · rw [replaceReferences_cons, if_neg other, if_pos reference, read]
      simp only [show checkLdr next r.reg = load from rfl, if_neg plain, replaced, Option.map_some]
    · exact covers.cons fun _ => ⟨r, load, read, rfl⟩
  | case7 line rest other plain ih =>
    obtain ⟨pieces, replaced, covers⟩ := ih (formed.rest other)
    refine ⟨.line line :: pieces, ?_, ?_⟩
    · rw [replaceReferences_cons, if_neg other, if_neg plain, replaced, Option.map_some]
    · exact covers.cons fun reference => absurd reference plain

end

/-- A reference to a name that no variable has is never rejected: it becomes an access to the
variable that was declared last, or to the start of the data if there is none. -/
theorem undeclared_accepted {table : List Variable} {front back : List (List Byte)}
    {line : List Byte} {r : Reference}
    (formed : Formed (front ++ line :: back)) (running : ∀ l ∈ front, ¬ isEnd l)
    (reference : isReference line)
    (read : readReference line = some r) (undeclared : ¬ Declared table r.name) :
    ∃ pieces, ∃ load : Option Int, replaceReferences table (front ++ line :: back) = some pieces ∧
      Piece.access load.isSome r.name (r.offset + load.getD 0)
        (table.dropLast.map Variable.size).sum
        (calculateAddress r.reg 4 (r.offset + load.getD 0 + (table.dropLast.map Variable.size).sum)
          load.isSome)
        ∈ pieces := by
  have covered : ∃ pieces, replaceReferences table (front ++ line :: back) = some pieces ∧
      Covers table (front ++ line :: back) pieces := replaceReferences_formed formed
  obtain ⟨pieces, replaced, covers⟩ := covered
  obtain ⟨r', load, read', mem⟩ := covers front line back rfl running reference
  cases Option.some.inj (read.symm.trans read')
  rw [access, globOffset_undeclared undeclared] at mem
  exact ⟨pieces, load, replaced, mem⟩

/-- `a` and `b` are declared, and `c` is not. -/
def twoVariables : List Variable := [⟨bytes "a", 1⟩, ⟨bytes "b", 1⟩]

def oneReference : List (List Byte) := [bytes ".LC3GLOBAL c 0", bytes ".END"]

theorem oneReference_formed : Formed oneReference :=
  ⟨by decide +kernel, bytes ".END", List.mem_cons_of_mem _ (List.mem_cons_self ..), by decide⟩

theorem c_undeclared : ¬ Declared twoVariables (bytes "c") := by
  unfold Declared
  decide

theorem c_accepted : ∃ pieces, ∃ load : Option Int,
    replaceReferences twoVariables oneReference = some pieces ∧
    Piece.access load.isSome (bytes "c") (0 + load.getD 0) 1
      (calculateAddress 0 4 (0 + load.getD 0 + 1) load.isSome)
      ∈ pieces :=
  @undeclared_accepted twoVariables [] _ _ _ oneReference_formed (List.forall_mem_nil _)
    (by decide +kernel)
    (show readReference (bytes ".LC3GLOBAL c 0") = some ⟨bytes "c", 0, 0⟩ by decide +kernel)
      c_undeclared

theorem undeclared_not_rejected : ¬ ∀ table code, Formed code →
    (∃ line ∈ code, ∃ r, readReference line = some r ∧ ¬ Declared table r.name) →
    replaceReferences table code = none := by
  intro rejected
  have none := rejected twoVariables oneReference oneReference_formed
    ⟨_, List.mem_cons_self .., ⟨bytes "c", 0, 0⟩, by decide +kernel, c_undeclared⟩
  have covered : ∃ pieces, replaceReferences twoVariables oneReference = some pieces ∧
      Covers twoVariables oneReference pieces := replaceReferences_formed oneReference_formed
  obtain ⟨pieces, replaced, -⟩ := covered
  rw [none] at replaced
  cases replaced

end LC3Tools.Emit
