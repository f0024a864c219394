import LC3Tools.Assembler.Labels

/-! The words the back end reserves for addresses. `function` and `defaddress` print
`.FILL` and the bare C name; in the linked file the name is also a label, on its own line
before the body of a function and before the first directive of a variable. The scanner
of the assembler takes the operand for a number if it can. -/
namespace LC3Tools.Lcc
open Assembler Flex

variable {b : Build}

/-- The lines of `__init.asm`, with which the linker begins every file, as the scanner reads
them. -/
def initLexemes : List (Action × List Byte) := [
  (.blankLine, bytes ";;;;;;;;;;;;;;;;;;;;;;;;;;;;;;\n"),
  (.blankLine, bytes ";;;; START of the header ;;;;;\n"),
  (.blankLine, bytes "\n"),
  (.opcode .ORIG, bytes ".Orig"), (.generate .I, bytes " x0500\n"),
  (.label, bytes "INIT_CODE"), (.blankLine, bytes "\n"),
  (.opcode .LD, bytes "LD"), (.generate .RL, bytes " R5, STACK_ADDR\n"),
  (.opcode .ADD, bytes "ADD"), (.generate .RRI, bytes " R6, R5, #0\n"),
  (.opcode .LD, bytes "LD"), (.generate .RL, bytes " R4, GLOBAL_DATA_POINTER\n"),
  (.opcode .LD, bytes "LD"), (.generate .RL, bytes " R7, GLOBAL_MAIN_POINTER\n"),
  (.opcode .JSRR, bytes "jsrr"), (.generate .R, bytes " R7\n"),
  (.blankLine, bytes "\n"),
  (.blankLine, bytes "; The main function has finished, so we do nothing\n"),
  (.label, bytes "BUSY_LOOP:"), (.white, bytes " "), (.condition, bytes "BR"),
  (.generate .L, bytes " BUSY_LOOP\n"),
  (.blankLine, bytes "\n"),
  (.blankLine, bytes "\n"),
  (.label, bytes "GLOBAL_DATA_POINTER"), (.white, bytes " "),
  (.opcode .FILL, bytes ".FILL"), (.generate .L, bytes " GLOBAL_DATA_START\n"),
  (.label, bytes "GLOBAL_MAIN_POINTER"), (.white, bytes " "),
  (.opcode .FILL, bytes ".FILL"), (.generate .L, bytes " main\n"),
  (.label, bytes "STACK_ADDR"), (.white, bytes " "), (.opcode .FILL, bytes ".FILL"),
  (.generate .I, bytes " xdfff\n"),
  (.blankLine, bytes "\n"),
  (.blankLine, bytes ";;;; END of the header ;;;;;\n"),
  (.blankLine, bytes ";;;;;;;;;;;;;;;;;;;;;;;;;;;;\n")]

/-- The header of a linked file. The linker copies the empty end of `__init.asm` as a line. -/
def initText : List Byte := texts initLexemes ++ [lineFeed]

theorem scans_init (post : List Byte) :
    scanner.Scans (lineFeed :: post) .initial (texts initLexemes)
    (placed initLexemes (lineFeed :: post)) .initial := by
  have found : scanner.settled 3 [lineFeed] .initial initLexemes =
    some .initial := by decide +kernel
  exact Scanner.scans_of_settled found post

/-- A text stands in a file where the scanner looks for a statement. -/
structure Occurs (text front : List Byte) (ls : List (Lexeme Byte Action)) (word post : List Byte) :
    Prop where
  split : text = front ++ (word ++ post)
  scans : scanner.Scans (word ++ post) .initial front ls .initial

theorem Occurs.yylex {text front word post : List Byte} {ls ms : List (Lexeme Byte Action)}
    (occurs : Occurs text front ls word post) {last : StartCondition}
    (scans : scanner.Scans post .initial word ms last) :
    yylex text = ls ++ (ms ++ scanner.lex last post) := by
  rw [Assembler.yylex, occurs.split, occurs.scans.lex, scans.lex]

section names
variable {name : List Byte}

end names

/-- The definition of a name is read as its label. -/
def LabelRead (stale : Stale) (s₁ : AsmState b) (text name : List Byte)
    (ms : List (Lexeme Byte Action))
    (tail : List Byte) (addr : Int) : Prop :=
  ∃ after r, yylex text = ms ++ ⟨.label, name, tail⟩ :: after ∧
    runPass stale (startPass .second s₁) ms = .ok r ∧ r.codeLoc = addr ∧
    findSymbol s₁.symbols name = some ⟨name, addr⟩

section accepted
variable {stale : Stale} {text name front tail : List Byte} {s₁ s₂ : AsmState b}
  {ms : List (Lexeme Byte Action)}

theorem LabelRead.plain {addr : Int} (ident : isIdentifier name)
    (labelled : LabelRead stale s₁ text name ms tail addr) :
    ¬ isKeyword name := by
  obtain ⟨after, r, lexemes, -⟩ := labelled
  obtain ⟨-, -, -, -, all⟩ := isIdentifier_cons ident
  have bare : byte ':' ∉ name := fun inside => absurd (all _ inside) (by decide)
  have among : (⟨.label, name, tail⟩ : Lexeme Byte Action) ∈ yylex text := by
    rw [lexemes]
    exact List.mem_append_right _ (List.mem_cons_self ..)
  exact (label_lexeme among rfl bare).2

end accepted

/-- `main` on the lexemes of a file. -/
def assembleLexemes (stale : Stale) (ls : List (Lexeme Byte Action)) : Outcome b :=
  match (runPass stale (startPass .first initialState) ls).map checkDirectives with
  | .error halt => .ofHalt halt
  | .ok s₁ =>
    if s₁.numErrors > 0 then .failed s₁
    else match runPass stale (startPass .second s₁) ls with
      | .error halt => .ofHalt halt
      | .ok s₂ => if s₂.numErrors > 0 then .failed s₂ else .ok s₂

theorem yylex_init (post : List Byte) : yylex (initText ++ post) =
    placed initLexemes (lineFeed :: post) ++ yylex (lineFeed :: post) := by
  have scanned := (scans_init post).lex
  rw [initText, List.append_assoc]
  exact scanned

theorem assemble_init (stale : Stale) (post : List Byte) :
    assemble (b := b) stale (initText ++ post) =
    assembleLexemes stale (placed initLexemes (lineFeed :: post) ++ yylex (lineFeed :: post)) := by
  rw [← yylex_init]
  rfl

def listed (text : List Byte) : Option (List (Int × BitVec 64)) :=
  match assemble (b := .bit16) (fun _ _ => 0) text with
  | .ok s₂ => some s₂.lstout
  | _ => none

end LC3Tools.Lcc
