import LC3Tools.Lcc.Fill
import LC3Tools.Lcc.GlobalData

/-! The lines of the compiled files on their way through `lc3pp`. The file of `main` is copied; from
another file `resolve_externs` takes a function with all its lines, but of a variable only the first
line and the `.FILL` lines behind it. -/
namespace LC3Tools.Lcc
open Assembler

def isFillLine (line : List Byte) : Bool := bytes "LC3_GFLAG .FILL" <+: line
def isVariableLine (line : List Byte) : Bool := bytes "LC3_GFLAG" <+: line

/-- What brings lines of a file into the linked file: it is the file of `main`, a name that it
exports is wanted, or an imported function uses a name of it, which is searched from a line on. -/
inductive Import where
  | main
  | exported (name : List Byte)
  | used (name : List Byte) (start : Nat)

/-- The lines of a function up to `RET`. -/
def upToRet : List (List Byte) → List (List Byte)
  | [] => []
  | line :: lines => if bytes "RET" <+: line then [line] else line :: upToRet lines

/-- The lines behind `.global`. -/
def behindGlobal (name : List Byte) (file : List (List Byte)) : List (List Byte) :=
  (file.dropWhile (· ≠ bytes ".global " ++ name)).tail

namespace Import

/-- The loops that import a declaration stop at the first line that is no `.FILL`. -/
def declares (file : List (List Byte)) : Import → Bool
  | main => false
  | exported name => (behindGlobal name file).head?.any isVariableLine
  | used .. => true

/-- The lines that the loop walks over. The search for a name goes on at the start of the file. -/
def segment (file : List (List Byte)) (i : Import) : List (List Byte) :=
  match i with
  | main => (file.takeWhile fun line => ¬ bytes ".END" <+: line).filter fun line =>
      ¬ bytes ".global" <+: line ∧ ¬ bytes ".extern" <+: line
  | exported name =>
    match behindGlobal name file with
    | [] => []
    | line :: lines => if isVariableLine line then line :: lines else line :: upToRet lines
  | used name start =>
    (file.drop start ++ file.take start).dropWhile fun line => ¬ bytes "LC3_GFLAG " ++ name <+: line

/-- The lines that are copied. -/
def lines (file : List (List Byte)) (i : Import) : List (List Byte) :=
  if i.declares file then
    match i.segment file with
    | [] => []
    | line :: lines => line :: lines.takeWhile isFillLine
  else i.segment file

end Import

/-- The data of the linked file. -/
def dataText (lines : List (List Byte)) : List Byte :=
  (lines.filter isVariableLine).flatMap fun line => (variableLine line).text

/-- The linked file, from the text that the other lines give and the lines of variables. -/
def linked (code : List Byte) (lines : List (List Byte)) : List Byte :=
  initText ++ code ++ bytes "\nGLOBAL_DATA_START\n" ++ dataText lines ++ bytes ".END\n"

/-- The line behind some others of a segment comes through. -/
def Import.Keeps (file : List (List Byte)) (i : Import) (front : List (List Byte))
    (line : List Byte) : Prop :=
  i.declares file = false ∨ front = [] ∨ (∀ l ∈ front.tail, isFillLine l) ∧ isFillLine line

section
variable {file front behind : List (List Byte)} {i : Import} {line : List Byte}

theorem kept_iff (stands : i.segment file = front ++ line :: behind) :
    (i.lines file)[front.length]? = some line ↔ i.Keeps file front line := by
  unfold Import.lines Import.Keeps
  by_cases declares : i.declares file
  · rw [if_pos declares, stands]
    simp only [declares, Bool.true_eq_false, false_or]
    cases front with
    | nil => simp
    | cons first front =>
      simp only [List.cons_append, List.length_cons, List.getElem?_cons_succ, reduceCtorEq,
        false_or, List.tail_cons]
      clear stands
      induction front with
      | nil =>
        by_cases fill : isFillLine line
        · simp [fill]
        · simp [fill]
      | cons next front ih =>
        by_cases fill : isFillLine next
        · simpa [fill] using ih
        · simp [fill]
  · rw [if_neg declares, stands]
    simp [declares]

theorem dataText_append (lines more : List (List Byte)) :
    dataText (lines ++ more) = dataText lines ++ dataText more := by
  rw [dataText, List.filter_append, List.flatMap_append]
  rfl

theorem dataText_head {lines : List (List Byte)}
    (ends : ∀ l ∈ lines, (variableLine l).text.head? ≠ some carriageReturn) :
    (dataText lines ++ bytes ".END\n").head? ≠ some carriageReturn := by
  induction lines with
  | nil => decide
  | cons line lines ih =>
    obtain ⟨here, later⟩ := List.forall_mem_cons.mp ends
    unfold dataText
    by_cases data : isVariableLine line
    · rw [List.filter_cons_of_pos data, List.flatMap_cons]
      cases text : (variableLine line).text with
      | nil => exact ih later
      | cons c cs =>
        rw [text] at here
        exact here
    · rw [List.filter_cons_of_neg data]
      exact ih later

theorem kept_split (stands : i.segment file = front ++ line :: behind)
    (kept : i.Keeps file front line) :
    ∃ more, i.lines file = front ++ line :: more ∧ ∀ l ∈ more, l ∈ behind := by
  unfold Import.lines
  by_cases declares : i.declares file
  · rw [if_pos declares, stands]
    rcases kept with copied | rfl | ⟨fills, fill⟩
    · exact absurd declares (by rw [copied]; decide)
    · exact ⟨behind.takeWhile isFillLine, rfl, fun l mem => (List.takeWhile_sublist _).subset mem⟩
    · cases front with
      | nil => exact ⟨behind.takeWhile isFillLine, rfl, fun l mem =>
          (List.takeWhile_sublist _).subset mem⟩
      | cons first front =>
        refine ⟨behind.takeWhile isFillLine, ?_, fun l mem => (List.takeWhile_sublist _).subset mem⟩
        have every : ∀ l ∈ front, isFillLine l := fills
        have taken : (front ++ line :: behind).takeWhile isFillLine = front ++ line ::
          behind.takeWhile isFillLine := by
          rw [List.takeWhile_append_of_pos every, List.takeWhile_cons_of_pos fill]
        exact congrArg (first :: ·) taken
  · rw [if_neg declares]
    exact ⟨behind, stands, fun l mem => mem⟩

end

end LC3Tools.Lcc
