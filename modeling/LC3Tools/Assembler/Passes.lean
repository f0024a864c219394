import LC3Tools.Assembler.Generate

/-! The two passes of `main`: the same scanner over the same text, with the symbol table
of the first pass in place when the second begins. -/
namespace LC3Tools.Assembler
open Flex

section
variable {b : Build}

/-- `parse_ccode`. BR alone means all three conditions. -/
def parseCcode (ccode : BitVec 64) (ccstr : List Byte) : BitVec 64 :=
  let take (flag : Char) (bit : BitVec 64) (st : BitVec 64 × List Byte) : BitVec 64 × List Byte :=
    if st.2.head?.map tolower = some (byte flag) then (st.1 ||| bit, st.2.tail) else st
  let (cc, _) := take 'p' 0x0200 (take 'z' 0x0400 (take 'n' 0x0800 (ccode, ccstr)))
  if cc = 0 then 0x0e00 else cc

def foundLabel (s : AsmState b) (lname : List Byte) : AsmState b :=
  let lastLabel := symName lname
  if s.pass = .first then
    if s.sawOrig = 0 then countError s (bytes "label appears before .ORIG\n")
    else match addSymbol s.symbols lastLabel s.codeLoc false with
      | none => countError s (bytes "label " ++ lastLabel ++ bytes " has already appeared\n")
      | some symbols => { s with symbols := symbols }
  else s

/-- The action of a rule, on the buffer as the scanner leaves it: the matched text, the
zero it puts in place of the next character, and the characters behind that one. -/
def act (stale : Stale) (s : AsmState b) (l : Lexeme Byte Action) : Step b :=
  match l.token with
  | .opcode op => .ok { s with op := op }
  | .condition => .ok { s with op := .BR, ccode := parseCcode s.ccode (l.text.drop 2) }
  | .finish => .ok { s with sawEnd := true }
  | .beginDebug _ | .beginGarbage | .white => .ok s
  | .handleDebug _ | .blankLine => .ok (newInstLine s)
  | .generate operands =>
    generateInstruction stale s operands (l.text ++ 0 :: l.rest.tail)
  | .label => .ok (foundLabel s l.text)
  | .unterminatedString => .ok (unterminatedString s)
  | .badOperands | .strayOperands => .ok (badOperands s)
  | .badLine => .ok (badLine s)
  | .lineIgnored => .ok (lineIgnored s)

def runPass (stale : Stale) (s : AsmState b) : List (Lexeme Byte Action) → Step b
  | [] => .ok s
  | l :: ls => (act stale s l).bind fun s' => runPass stale s' ls

/-- The assignments before each call of `yylex`, `new_inst_line` included. -/
def startPass (pass : Pass) (s : AsmState b) : AsmState b :=
  newInstLine { s with
    pass := pass, lineNum := 0, numErrors := 0, sawOrig := 0, codeLoc := 0x3000, sawEnd := false }

def initialState : AsmState b where
  pass := .first
  lineNum := 0
  numErrors := 0
  sawOrig := 0
  codeLoc := 0
  sawEnd := false
  op := .NONE
  ccode := 0
  symbols := .empty
  objout := []
  lstout := []
  stderr := []

/-- The checks of `main` between the passes. -/
def checkDirectives (s : AsmState b) : AsmState b :=
  if s.sawOrig = 0 then
    if s.numErrors = 0 ∧ ¬ s.sawEnd then countError s (bytes "file contains only comments\n")
    else if ¬ s.sawEnd then countError s (bytes "no .ORIG or .END directive found\n")
    else countError s (bytes "no .ORIG directive found\n")
  else if ¬ s.sawEnd then countError s (bytes "no .END directive found\n")
  else s

/-- The state after the first pass, or the exit status. -/
inductive Outcome (b : Build) where
  | ok (s : AsmState b)
  | failed (s : AsmState b)
  | undefined

def Outcome.ofHalt : Halt b → Outcome b
  | .exit s => .failed s
  | .undefined => .undefined

def firstPass (stale : Stale) (text : List Byte) : Step b :=
  (runPass stale (startPass .first initialState) (yylex text)).map checkDirectives

def secondPass (stale : Stale) (text : List Byte) (s : AsmState b) : Step b :=
  runPass stale (startPass .second s) (yylex text)

/-- `main`, from the opened source file to its exit status 0 or 1. -/
def assemble (stale : Stale) (text : List Byte) : Outcome b :=
  match firstPass stale text with
  | .error halt => .ofHalt halt
  | .ok s₁ =>
    if s₁.numErrors > 0 then .failed s₁
    else match secondPass stale text s₁ with
      | .error halt => .ofHalt halt
      | .ok s₂ => if s₂.numErrors > 0 then .failed s₂ else .ok s₂

end

end LC3Tools.Assembler
