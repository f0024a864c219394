import LC3Tools.Assembler.Generate
import LC3Tools.Assembler.Names

/-! The data directives, from the back end through the linker. `defstring` prints them
behind the flag of global data, and the main loop of `lc3pp` takes the flag and the size
off again. -/
namespace LC3Tools.Lcc
open Assembler

/-- What `defstring` prints for a character. -/
def escaped (c : Byte) : List Byte :=
  if c = 7 then bytes "\\a" else if c = 8 then bytes "\\b" else if c = 12 then bytes "\\f"
  else if c = 10 then bytes "\\n" else if c = 13 then bytes "\\r" else if c = 9 then bytes "\\t"
  else if c = 11 then bytes "\\v" else if c = 0 then bytes "\\0"
  else if c = byte '"' then bytes "\\\"" else if c = byte '\\' then bytes "\\\\"
  else [c]

/-- `defstring`, where `n` is the size of the array. The last character is left to the
assembler. -/
def defstring (str : List Byte) : List Byte :=
  if str.length = 1 then
    bytes "LC3_GFLAG .FILL #" ++ decimal (str.headD 0).toNat ++ [lineFeed]
  else
    bytes "LC3_GFLAG .STRINGZ " ++ decimal str.length ++ bytes " \"" ++
      str.dropLast.flatMap escaped ++ bytes "\"\n"

/-- `global`. -/
def global (name : List Byte) : List Byte := bytes "LC3_GFLAG " ++ name ++ bytes " "

/-- A directive of a variable: the label, if it is the first, and the string. -/
def emitString (label : Option (List Byte)) (str : List Byte) : List Byte :=
  (label.elim [] global) ++ defstring str

/-- `Readline`, and the C string it leaves. -/
def readline (file : List Byte) : List Byte := cstring (file.takeWhile (· ≠ lineFeed))

/-- `Getword`. It looks for the blank one character ahead, so a word that ends the line
counts the zero behind it. -/
def getword : List Byte → Nat
  | [] => 1
  | _ :: line => if line.head? = some (byte ' ') then 1 else getword line + 1

def atoi (text : List Byte) : Int := (strtol 10 text).getD 0

/-- What a line behind `LC3_GFLAG` adds to the variable file and to the table. -/
structure VariableLine where
  name : Option (List Byte)
  text : List Byte
  size : Int

/-- The branches of the main loop for such a line, with their columns. -/
def variableLine (line : List Byte) : VariableLine :=
  if bytes ".FILL" <+: line.drop 10 then ⟨none, line.drop 10 ++ [lineFeed], 1⟩
  else if bytes ".BLKW" <+: line.drop 10 then
    ⟨none, line.drop 10 ++ [lineFeed], atoi (line.drop 16)⟩
  else if bytes ".STRINGZ" <+: line.drop 10 then
    let length := getword (line.drop 19)
    ⟨none, bytes ".STRINGZ " ++ line.drop (19 + length) ++ [lineFeed], atoi (line.drop 19)⟩
  else
    let length := getword (line.drop 10)
    let name := (line.drop 10).take length
    if bytes ".FILL" <+: line.drop (length + 21) then
      ⟨some name, name ++ bytes " " ++ line.drop (length + 21) ++ [lineFeed], 1⟩
    else if bytes ".BLKW" <+: line.drop (length + 21) then
      ⟨some name, name ++ bytes " " ++ line.drop (length + 21) ++ [lineFeed],
        atoi (line.drop (length + 26))⟩
    else
      let digits := getword (line.drop (length + 30))
      ⟨some name, name ++ bytes " " ++ bytes ".STRINGZ " ++ line.drop (length + digits + 31) ++
        [lineFeed], atoi ((line.drop (length + 30)).take digits)⟩

/-- The directive as the assembler finds it in the linked file. -/
def linkString (label : Option (List Byte)) (str : List Byte) : List Byte :=
  (variableLine (readline (emitString label str))).text

/-- What stands in front of the directive. -/
def labelText (label : Option (List Byte)) : List Byte := label.elim [] (· ++ bytes " ")

/-- The directive without its label. A string that had no label keeps the blank in front of
its size and the one behind it. -/
def directive (label : Option (List Byte)) (str : List Byte) : List Byte :=
  if str.length = 1 then bytes ".FILL #" ++ decimal (str.headD 0).toNat ++ [lineFeed]
  else
    bytes ".STRINGZ " ++ (if label = none then bytes " " else []) ++
      (quote :: str.dropLast.flatMap escaped ++ [quote, lineFeed])

theorem escaped_free {c x : Byte} (inside : x ∈ escaped c) : x ≠ lineFeed ∧ x ≠ 0 := by
  have free : ∀ c : Byte, (escaped c).all fun x => x ≠ lineFeed && x ≠ 0 := by decide +kernel
  have both := List.all_eq_true.mp (free c) x inside
  simpa using both

theorem readline_line {line : List Byte} (free : ∀ x ∈ line, x ≠ lineFeed ∧ x ≠ 0) :
    readline (line ++ [lineFeed]) = line := by
  have first : (line ++ [lineFeed]).takeWhile (· ≠ lineFeed) = line := by
    rw [List.takeWhile_append_of_pos fun x inside => decide_eq_true (free x inside).1]
    simp
  have whole : (line ++ []).takeWhile (· ≠ 0) = line ++ [] :=
    List.takeWhile_append_of_pos fun x inside => decide_eq_true (free x inside).2
  rw [List.append_nil] at whole
  rw [readline, first, cstring, whole]

theorem getword_blank {word rest : List Byte} (nonempty : word ≠ []) (plain : byte ' ' ∉ word) :
    getword (word ++ byte ' ' :: rest) = word.length := by
  induction word with
  | nil => exact absurd rfl nonempty
  | cons c cs ih =>
    rw [List.cons_append, getword]
    cases cs with
    | nil => simp
    | cons d cs =>
      have other : ¬ (d :: cs ++ byte ' ' :: rest).head? = some (byte ' ') := by
        rintro same
        cases same
        simp at plain
      rw [if_neg other, ih (by simp) (fun inside => plain (List.mem_cons_of_mem _ inside))]
      rfl

section columns
variable {front rest : List Byte} {n : Nat}

theorem drop_columns (m : Nat) (size : front.length = n) :
    (front ++ rest).drop (n + m) = rest.drop m := by
  rw [← size, List.drop_append, List.drop_eq_nil_of_le (by omega)]
  simp

end columns

section lines
variable {name word rest : List Byte}

theorem variableLine_fill : (variableLine (bytes "LC3_GFLAG " ++ (bytes ".FILL" ++ rest))).text =
    bytes ".FILL" ++ rest ++ [lineFeed] := by
  have columns : (bytes "LC3_GFLAG " ++ (bytes ".FILL" ++ rest)).drop 10 = bytes ".FILL" ++ rest :=
    drop_columns 0 (by decide)
  rw [variableLine, columns, if_pos (List.prefix_append _ _)]

theorem variableLine_string (nonempty : word ≠ []) (plain : byte ' ' ∉ word) :
    (variableLine (bytes "LC3_GFLAG " ++ (bytes ".STRINGZ " ++ (word ++ byte ' ' :: rest)))).text =
      bytes ".STRINGZ " ++ byte ' ' :: rest ++ [lineFeed] := by
  have columns : (bytes "LC3_GFLAG " ++ (bytes ".STRINGZ " ++ (word ++ byte ' ' :: rest))).drop 10 =
      bytes ".STRINGZ" ++ (byte ' ' :: (word ++ byte ' ' :: rest)) :=
    drop_columns 0 (by decide)
  have size (m : Nat) :
      (bytes "LC3_GFLAG " ++ (bytes ".STRINGZ " ++ (word ++ byte ' ' :: rest))).drop (19 + m) =
        (word ++ byte ' ' :: rest).drop m := by
    rw [← List.append_assoc]
    exact drop_columns m (by decide)
  have fill : ¬ bytes ".FILL" <+: bytes ".STRINGZ" ++ (byte ' ' :: (word ++ byte ' ' :: rest)) := by
    simp [bytes, List.cons_prefix_cons, byte]
  have blkw : ¬ bytes ".BLKW" <+: bytes ".STRINGZ" ++ (byte ' ' :: (word ++ byte ' ' :: rest)) := by
    simp [bytes, List.cons_prefix_cons, byte]
  have text := size 0
  rw [List.drop_zero] at text
  rw [variableLine, columns, if_neg fill, if_neg blkw, if_pos (List.prefix_append _ _)]
  simp only [text, getword_blank nonempty plain, size, List.drop_left]

/-- A line with a label, as the columns of the linker cut it. -/
structure Labelled (line name rest : List Byte) : Prop where
  length : getword (line.drop 10) = name.length
  word : (line.drop 10).take name.length = name
  columns : ∀ m, line.drop (name.length + (21 + m)) = rest.drop m
  other : ∀ word : List Byte, word.head? = some (byte '.') → ¬ word <+: line.drop 10

theorem labelled (ident : isIdentifier name) :
    Labelled (bytes "LC3_GFLAG " ++ (name ++ (bytes " LC3_GFLAG " ++ rest))) name rest := by
  obtain ⟨c, cs, rfl, letter, all⟩ := isIdentifier_cons ident
  have flags : bytes " LC3_GFLAG " = byte ' ' :: bytes "LC3_GFLAG " := by decide +kernel
  have size : (bytes "LC3_GFLAG ").length = 10 := by decide +kernel
  rw [flags]
  have columns :
      (bytes "LC3_GFLAG " ++ ((c :: cs) ++ (byte ' ' :: bytes "LC3_GFLAG " ++ rest))).drop 10 =
      (c :: cs) ++ byte ' ' :: (bytes "LC3_GFLAG " ++ rest) :=
    drop_columns 0 size
  have plain : byte ' ' ∉ c :: cs := fun blank => absurd (all _ blank) (by decide)
  refine ⟨?_, ?_, ?_, ?_⟩
  · rw [columns, getword_blank (by simp) plain]
  · rw [columns, List.take_left]
  · intro m
    have apart : (c :: cs).length + (21 + m) =
        (bytes "LC3_GFLAG " ++ ((c :: cs) ++ byte ' ' :: bytes "LC3_GFLAG ")).length + m := by
      simp only [List.length_append, List.length_cons, size]
      omega
    rw [← List.append_assoc (c :: cs), ← List.append_assoc, apart]
    exact drop_columns m rfl
  · rintro word dot ⟨more, same⟩
    rw [columns] at same
    cases word with
    | nil => cases dot
    | cons d word =>
      cases dot
      cases (List.cons.inj same).1
      exact absurd letter (by decide)

theorem variableLine_labelled_fill (ident : isIdentifier name) :
    (variableLine (bytes "LC3_GFLAG " ++
      (name ++ (bytes " LC3_GFLAG " ++ (bytes ".FILL" ++ rest))))).text =
      name ++ bytes " " ++ (bytes ".FILL" ++ rest) ++ [lineFeed] := by
  have cut : Labelled _ name (bytes ".FILL" ++ rest) := labelled ident
  obtain ⟨length, take, columns, other⟩ := cut
  have here := columns 0
  rw [List.drop_zero] at here
  rw [variableLine, if_neg (other (bytes ".FILL") rfl), if_neg (other (bytes ".BLKW") rfl),
    if_neg (other (bytes ".STRINGZ") rfl)]
  simp only [length, take, here, List.prefix_append, if_true]

theorem variableLine_labelled_string (ident : isIdentifier name) (nonempty : word ≠ [])
    (plain : byte ' ' ∉ word) :
    (variableLine (bytes "LC3_GFLAG " ++ (name ++ (bytes " LC3_GFLAG " ++
      (bytes ".STRINGZ " ++ (word ++ byte ' ' :: rest)))))).text =
      name ++ bytes " " ++ bytes ".STRINGZ " ++ rest ++ [lineFeed] := by
  have cut : Labelled _ name (bytes ".STRINGZ " ++ (word ++ byte ' ' :: rest)) := labelled ident
  obtain ⟨length, take, columns, other⟩ := cut
  have here := columns 0
  have size := columns 9
  have behind := columns (9 + word.length + 1)
  have text : (bytes ".STRINGZ " ++ (word ++ byte ' ' :: rest)).drop 9 = word ++ byte ' ' :: rest :=
    drop_columns 0 (by decide)
  have last : (bytes ".STRINGZ " ++ (word ++ byte ' ' :: rest)).drop (9 + word.length + 1) =
    rest := by
    rw [Nat.add_assoc, drop_columns _ (by decide), drop_columns 1 rfl]
    rfl
  have apart : name.length + word.length + 31 =
    name.length + (21 + (9 + word.length + 1)) := by omega
  have fill : ¬ bytes ".FILL" <+: bytes ".STRINGZ " ++ (word ++ byte ' ' :: rest) := by
    simp [bytes, List.cons_prefix_cons, byte]
  have blkw : ¬ bytes ".BLKW" <+: bytes ".STRINGZ " ++ (word ++ byte ' ' :: rest) := by
    simp [bytes, List.cons_prefix_cons, byte]
  rw [List.drop_zero] at here
  rw [text] at size
  rw [last, ← apart] at behind
  rw [variableLine, if_neg (other (bytes ".FILL") rfl), if_neg (other (bytes ".BLKW") rfl),
    if_neg (other (bytes ".STRINGZ") rfl)]
  simp only [length, take, here, if_neg fill, if_neg blkw]
  simp only [size, getword_blank nonempty plain, behind]

end lines

theorem decimal_free (k : Nat) : ∀ x ∈ decimal k, (x ≠ lineFeed ∧ x ≠ 0) ∧ x ≠ byte ' ' := by
  have plain : ∀ x : Byte, isdigit x → (x ≠ lineFeed ∧ x ≠ 0) ∧ x ≠ byte ' ' := by decide +kernel
  exact fun x inside => plain x (isdigit_decimal inside)

theorem printed_read {label : Option (List Byte)} {rest : List Byte}
    (named : ∀ name ∈ label, isIdentifier name) (free : ∀ x ∈ rest, x ≠ lineFeed ∧ x ≠ 0) :
    readline (label.elim [] global ++ (bytes "LC3_GFLAG " ++ rest) ++ [lineFeed]) =
      label.elim [] global ++ (bytes "LC3_GFLAG " ++ rest) := by
  apply readline_line
  refine List.forall_mem_append.mpr ⟨?_, List.forall_mem_append.mpr ⟨by decide, free⟩⟩
  cases label with
  | none => exact List.forall_mem_nil _
  | some name =>
    obtain ⟨-, -, -, -, all⟩ := isIdentifier_cons (named name rfl)
    have plain : ∀ x, Pattern.isalnumbar x → x ≠ lineFeed ∧ x ≠ 0 := by decide +kernel
    refine List.forall_mem_append.mpr ⟨List.forall_mem_append.mpr ⟨by decide, ?_⟩, by decide⟩
    exact fun x inside => plain x (all x inside)

theorem global_flag (name rest : List Byte) : global name ++ (bytes "LC3_GFLAG " ++ rest) =
    bytes "LC3_GFLAG " ++ (name ++ (bytes " LC3_GFLAG " ++ rest)) := by
  have flags : bytes " LC3_GFLAG " = bytes " " ++ bytes "LC3_GFLAG " := by decide
  rw [global, flags]
  simp only [List.append_assoc]

theorem linkString_eq {label : Option (List Byte)} (named : ∀ name ∈ label, isIdentifier name)
    (str : List Byte) : linkString label str = labelText label ++ directive label str := by
  unfold linkString emitString defstring directive
  split
  · have line : label.elim [] global ++ (bytes "LC3_GFLAG .FILL #" ++
        decimal (str.headD 0).toNat ++ [lineFeed]) = label.elim [] global ++ (bytes "LC3_GFLAG " ++
          (bytes ".FILL" ++ (bytes " #" ++ decimal (str.headD 0).toNat))) ++ [lineFeed] := by
      have front : bytes "LC3_GFLAG .FILL #" =
        bytes "LC3_GFLAG " ++ (bytes ".FILL" ++ bytes " #") := by
        decide
      rw [front]
      simp only [List.append_assoc]
    have back : bytes ".FILL #" = bytes ".FILL" ++ bytes " #" := by decide
    rw [line, printed_read named, back]
    · cases label with
      | none =>
        change (variableLine (bytes "LC3_GFLAG " ++ (bytes ".FILL" ++ _))).text = _
        rw [variableLine_fill]
        simp only [labelText, Option.elim_none, List.nil_append, List.append_assoc]
      | some name =>
        change (variableLine (global name ++ (bytes "LC3_GFLAG " ++ _))).text = _
        rw [global_flag, variableLine_labelled_fill (named name rfl)]
        simp only [labelText, Option.elim_some, List.append_assoc]
    · refine List.forall_mem_append.mpr ⟨by decide, List.forall_mem_append.mpr ⟨by decide, ?_⟩⟩
      exact fun x inside => (decimal_free _ x inside).1
  · have line : label.elim [] global ++ (bytes "LC3_GFLAG .STRINGZ " ++ decimal str.length ++
        bytes " \"" ++ str.dropLast.flatMap escaped ++ bytes "\"\n") =
          label.elim [] global ++ (bytes "LC3_GFLAG " ++ (bytes ".STRINGZ " ++ (decimal str.length ++
            byte ' ' :: (quote :: str.dropLast.flatMap escaped ++ [quote])))) ++ [lineFeed] := by
      have front : bytes "LC3_GFLAG .STRINGZ " =
        bytes "LC3_GFLAG " ++ bytes ".STRINGZ " := by decide
      have opening : bytes " \"" = [byte ' ', quote] := by decide
      have closing : bytes "\"\n" = [quote, lineFeed] := by decide
      rw [front, opening, closing]
      simp
    have plain : byte ' ' ∉ decimal str.length := fun inside => (decimal_free _ _ inside).2 rfl
    rw [line, printed_read named]
    · cases label with
      | none =>
        change (variableLine (bytes "LC3_GFLAG " ++ (bytes ".STRINGZ " ++ _))).text = _
        rw [variableLine_string (decimal_ne_nil _) plain]
        simp [labelText, bytes]
      | some name =>
        change (variableLine (global name ++ (bytes "LC3_GFLAG " ++ _))).text = _
        rw [global_flag, variableLine_labelled_string (named name rfl) (decimal_ne_nil _) plain]
        simp [labelText]
    · refine List.forall_mem_append.mpr ⟨by decide, List.forall_mem_append.mpr
        ⟨fun x inside => (decimal_free _ x inside).1, ?_⟩⟩
      refine List.forall_mem_cons.mpr ⟨by decide, List.forall_mem_append.mpr
        ⟨List.forall_mem_cons.mpr ⟨by decide, ?_⟩, by decide⟩⟩
      intro x inside
      obtain ⟨c, -, among⟩ := List.mem_flatMap.mp inside
      exact escaped_free among

end LC3Tools.Lcc
