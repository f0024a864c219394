import LC3Tools.Assembler.Text
import LC3Tools.Flex.Scanner

/-! The scanner of `lc3.f`, which is generated with the option that ignores case. Its
actions choose the next start condition by the rule alone, so the lexemes of a file
do not depend on what the assembler does with them. -/
namespace LC3Tools.Assembler
open Flex

/-- `opcode_t`. -/
inductive Op where
  | NONE
  | ADD | AND | BR | JMP | JSR | JSRR | LD | LDI | LDR | LEA | NOT | RTI | ST | STI | STR | TRAP
  | GETC | HALT | IN | OUT | PUTS | PUTSP
  | FILL | RET | STRINGZ
  | BLKW | END | ORIG
  | SLL | SRA | DIV | MOD | MUL
  | NOP
  | BLKWTO
  deriving DecidableEq, Repr

/-- `operands_t`. -/
inductive Operands where
  | RRR | RRI | RR | RI | RL | R | I | L | S | none
  deriving DecidableEq, Repr

/-- `debug_stab_t`. -/
inductive DebugStab where
  | file | line | lineEnd | type | symbol | block
  deriving DecidableEq, Repr

inductive StartCondition where
  | initial | operands | garbage | finished | debug (stab : DebugStab)
  deriving DecidableEq, Repr

/-- The actions of the rules. -/
inductive Action where
  | opcode (op : Op)
  | condition
  | finish
  | beginDebug (stab : DebugStab)
  | handleDebug (stab : DebugStab)
  | generate (operands : Operands)
  | white
  | blankLine
  | label
  | unterminatedString
  | badOperands
  | strayOperands
  | beginGarbage
  | badLine
  | lineIgnored
  deriving DecidableEq, Repr

abbrev Pattern := Regex Byte

namespace Pattern

/-- A class written out, closed under case as the option makes it. -/
def oneOf (s : String) : Pattern := .char fun b => (bytes s).any fun c => tolower b = tolower c

def lit (s : String) : Pattern :=
  (bytes s).foldr (fun c r => .seq (.char fun b => tolower b = tolower c) r) .epsilon

def opt (r : Pattern) : Pattern := .alt .epsilon r
def plus (r : Pattern) : Pattern := .seq r (.star r)

def isnewline (b : Byte) : Bool := b = byte '\n' || b = byte '\r'

def ishexdigit (b : Byte) : Bool := isDigitOf 16 b
def isalphabar (b : Byte) : Bool := b = byte '_' || (byte 'a' ≤ tolower b && tolower b ≤ byte 'z')
def isalnumbar (b : Byte) : Bool := isalphabar b || isdigit b
def isblank (b : Byte) : Bool := b = byte ' ' || b = byte '\t'

def ccode : Pattern := .seq (opt (lit "n")) (.seq (opt (lit "z")) (opt (lit "p")))

def register : Pattern := .seq (lit "r") (.char fun b => byte '0' ≤ b && b ≤ byte '7')
def hex : Pattern := .seq (lit "x") (.seq (opt (lit "-")) (plus (.char ishexdigit)))
def decimal : Pattern := .seq (opt (lit "#")) (.seq (opt (lit "-")) (plus (.char isdigit)))
def immed : Pattern := .alt hex decimal
def label : Pattern := .seq (.char isalphabar) (.star (.char isalnumbar))

/-- Between the quotes anything goes: the inner star also runs over backslashes, and the
other alternative lets a quote follow one. -/
def string : Pattern :=
  .seq (lit "\"") (.seq (.star (.alt (.star (.char (· ≠ byte '"'))) (lit "\\\""))) (lit "\""))

def utstring : Pattern := .seq (lit "\"") (.star (.char fun b => !isnewline b))

def space : Pattern := .char isblank
def opSep : Pattern :=
  .seq (.star space) (.seq (.char fun b => b = byte ',' || isblank b) (.star space))
def comment : Pattern := .seq (lit ";") (.star (.char fun b => !isnewline b))
def emptyline : Pattern := .seq (.star space) (opt comment)
def endline : Pattern := .seq emptyline (.seq (opt (lit "\r")) (.seq (lit "\n") (opt (lit "\r"))))
def restline : Pattern := .seq (.star (.char fun b => !isnewline b)) endline

def oRRR : Pattern :=
  .seq (plus space) (.seq register
    (.seq opSep (.seq register (.seq opSep (.seq register endline)))))
def oRRI : Pattern :=
  .seq (plus space) (.seq register (.seq opSep (.seq register (.seq opSep (.seq immed endline)))))
def oRR : Pattern := .seq (plus space) (.seq register (.seq opSep (.seq register endline)))
def oRI : Pattern := .seq (plus space) (.seq register (.seq opSep (.seq immed endline)))
def oRL : Pattern := .seq (plus space) (.seq register (.seq opSep (.seq label endline)))
def oR : Pattern := .seq (plus space) (.seq register endline)
def oI : Pattern := .seq (plus space) (.seq immed endline)
def oL : Pattern := .seq (plus space) (.seq label endline)
def oS : Pattern := .seq (plus space) (.seq string endline)
def oUTS : Pattern := .seq (plus space) (.seq utstring endline)

def debug (kind : String) : Pattern :=
  .seq (lit ".DEBUG") (.seq (plus space) (.seq (lit kind) (plus space)))

/-- `.` of the rule file. -/
def any : Pattern := .char (· ≠ byte '\n')

end Pattern

open Pattern

def keyword (s : String) (op : Op) : Rule Byte Action := ⟨.opcode op, lit s⟩

def initialRules : List (Rule Byte Action) :=
  [keyword "ADD" .ADD, keyword "AND" .AND, ⟨.condition, .seq (lit "BR") ccode⟩,
    keyword "JMP" .JMP, keyword "JSRR" .JSRR, keyword "JSR" .JSR, keyword "LDI" .LDI,
    keyword "LDR" .LDR, keyword "LD" .LD, keyword "LEA" .LEA, keyword "NOT" .NOT,
    keyword "RTI" .RTI, keyword "STI" .STI, keyword "STR" .STR, keyword "ST" .ST,
    keyword "TRAP" .TRAP,
    keyword "GETC" .GETC, keyword "HALT" .HALT, keyword "IN" .IN, keyword "OUT" .OUT,
    keyword "PUTS" .PUTS, keyword "PUTSP" .PUTSP,
    keyword ".FILL" .FILL, keyword "RET" .RET, keyword ".STRINGZ" .STRINGZ,
    keyword ".BLKW" .BLKW, ⟨.finish, lit ".END"⟩, keyword ".ORIG" .ORIG,
    keyword "SLL" .SLL, keyword "SRA" .SRA, keyword "DIV" .DIV, keyword "MOD" .MOD,
    keyword "MUL" .MUL, keyword "NOP" .NOP, keyword ".BLKWTO" .BLKWTO,
    ⟨.beginDebug .file, debug "FILE"⟩, ⟨.beginDebug .line, debug "LINE"⟩,
    ⟨.beginDebug .lineEnd, debug "LINEEND"⟩, ⟨.beginDebug .type, debug "TYPE"⟩,
    ⟨.beginDebug .symbol, debug "SYMBOL"⟩, ⟨.beginDebug .block, debug "BLOCK"⟩,
    ⟨.white, plus space⟩, ⟨.blankLine, endline⟩,
    ⟨.label, label⟩, ⟨.label, .seq label (.seq (.star space) (lit ":"))⟩,
    ⟨.strayOperands, .alt oRRR (.alt oRRI (.alt oRR (.alt oRI (.alt oRL (.alt oR
      (.alt oI (.alt oS oUTS)))))))⟩,
    ⟨.beginGarbage, any⟩]

def operandRules : List (Rule Byte Action) :=
  [⟨.generate .RRR, oRRR⟩, ⟨.generate .RRI, oRRI⟩, ⟨.generate .RR, oRR⟩, ⟨.generate .RI, oRI⟩,
    ⟨.generate .RL, oRL⟩, ⟨.generate .R, oR⟩, ⟨.generate .I, oI⟩, ⟨.generate .L, oL⟩,
    ⟨.generate .S, oS⟩, ⟨.generate .none, endline⟩, ⟨.unterminatedString, oUTS⟩,
    ⟨.badOperands, restline⟩]

def debugRule (stab : DebugStab) : Rule Byte Action :=
  ⟨.handleDebug stab, match stab with
    | .file => .seq Pattern.decimal (.seq (lit ":") restline)
    | .line | .lineEnd => .seq Pattern.decimal (.seq (lit ":") (.seq Pattern.decimal endline))
    | .type => .seq Pattern.decimal (.seq (lit "=") restline)
    | .symbol => .seq (oneOf "FfGSslp") (.seq Pattern.decimal (.seq (lit ":")
        (.seq (plus (.char (· ≠ byte ':'))) (.seq (lit ":") restline))))
    | .block => restline⟩

def finishedRules : List (Rule Byte Action) :=
  [⟨.blankLine, .alt endline emptyline⟩,
    ⟨.lineIgnored, .seq (.star any) (.alt endline emptyline)⟩]

def rules : StartCondition → List (Rule Byte Action)
  | .initial => initialRules
  | .operands => operandRules
  | .garbage => [⟨.badLine, restline⟩]
  | .finished => finishedRules
  | .debug stab => [debugRule stab]

/-- The `BEGIN` of each action, none where the scanner returns. -/
def next (cond : StartCondition) : Action → Option StartCondition
  | .opcode _ | .condition => some .operands
  | .finish => some .finished
  | .beginDebug stab => some (.debug stab)
  | .handleDebug _ | .generate _ | .unterminatedString | .badOperands | .badLine => some .initial
  | .beginGarbage => some .garbage
  | .white | .blankLine | .label | .strayOperands => some cond
  | .lineIgnored => none

def scanner : Scanner Byte StartCondition Action := ⟨rules, next⟩

/-- The lexemes one call of `yylex` on a whole file acts on. -/
def yylex (text : List Byte) : List (Lexeme Byte Action) := scanner.lex .initial text

end LC3Tools.Assembler
