import LC3Tools.Assembler.Build
import LC3Tools.Assembler.Converter
import LC3Tools.Assembler.Lexer
import LC3Tools.Assembler.Symbols

/-! The code generator of `lc3.f`: the number readers, `write_value`, `find_label` and
`generate_instruction`. Of the output files only the object file is kept, and of the
listing the address and value of each line. -/
namespace LC3Tools.Assembler

inductive Pass where
  | first | second
  deriving DecidableEq, Repr

def opname : Op → String
  | .NONE => "missing opcode"
  | .ADD => "ADD" | .AND => "AND" | .BR => "BR" | .JMP => "JMP" | .JSR => "JSR"
  | .JSRR => "JSRR" | .LD => "LD" | .LDI => "LDI" | .LDR => "LDR" | .LEA => "LEA"
  | .NOT => "NOT" | .RTI => "RTI" | .ST => "ST" | .STI => "STI" | .STR => "STR"
  | .TRAP => "TRAP"
  | .GETC => "GETC" | .HALT => "HALT" | .IN => "IN" | .OUT => "OUT" | .PUTS => "PUTS"
  | .PUTSP => "PUTSP"
  | .FILL => ".FILL" | .RET => "RET" | .STRINGZ => ".STRINGZ"
  | .BLKW => ".BLKW" | .END => ".END" | .ORIG => ".ORIG"
  | .SLL => "SLL" | .SRA => "SRA" | .DIV => "DIV" | .MOD => "MOD" | .MUL => "MUL"
  | .NOP => "NOP" | .BLKWTO => ".BLKWTO"

def opFormatOk : Op → Nat
  | .NONE => 0x200
  | .ADD => 0x003 | .AND => 0x003 | .BR => 0x0C0 | .JMP => 0x020 | .JSR => 0x0C0
  | .JSRR => 0x020 | .LD => 0x018 | .LDI => 0x018 | .LDR => 0x002 | .LEA => 0x018
  | .NOT => 0x004 | .RTI => 0x002 | .ST => 0x018 | .STI => 0x018 | .STR => 0x002
  | .TRAP => 0x040
  | .GETC => 0x200 | .HALT => 0x200 | .IN => 0x200 | .OUT => 0x200 | .PUTS => 0x200
  | .PUTSP => 0x200
  | .FILL => 0x0C0 | .RET => 0x200 | .STRINGZ => 0x100
  | .BLKW => 0x040 | .END => 0x200 | .ORIG => 0x040
  | .SLL => 0x003 | .SRA => 0x003 | .DIV => 0x001 | .MOD => 0x001 | .MUL => 0x001
  | .NOP => 0x200
  | .BLKWTO => 0x040

/-- The value of the enumerator, the bit `op_format_ok` uses. -/
def Operands.code : Operands → Nat
  | .RRR => 0 | .RRI => 1 | .RR => 2 | .RI => 3 | .RL => 4 | .R => 5 | .I => 6 | .L => 7
  | .S => 8 | .none => 9

def addrMask : BitVec 64 := 0xffff

structure Diagnostic where
  line : Nat
  text : List Byte

structure AsmState (b : Build) where
  pass : Pass
  lineNum : Nat
  numErrors : Nat
  sawOrig : Nat
  codeLoc : Int
  sawEnd : Bool
  op : Op
  ccode : BitVec 64
  symbols : SymbolTable
  objout : List (BitVec b.registerBits)
  /-- What the listing shows of each word, kept also where no listing is opened. -/
  lstout : List (Int × BitVec 64)
  stderr : List Diagnostic

/-- How `yylex` may fail to come back: `exit(1)`, or a read past the text. -/
inductive Halt (b : Build) where
  | exit (s : AsmState b)
  | undefined

/-- What an automatic variable holds before it is assigned, per pass and line. -/
abbrev Stale := Pass → Nat → BitVec 64

section
variable {b : Build}

abbrev Step (b : Build) := Except (Halt b) (AsmState b)

def newInstLine (s : AsmState b) : AsmState b :=
  { s with op := .NONE, ccode := 0, lineNum := s.lineNum + 1 }

def showError (s : AsmState b) (text : List Byte) : AsmState b :=
  { s with stderr := s.stderr ++ [⟨s.lineNum, text⟩] }

/-- `show_error` together with `num_errors++`. -/
def countError (s : AsmState b) (text : List Byte) : AsmState b :=
  { showError s text with numErrors := s.numErrors + 1 }

def badOperands (s : AsmState b) : AsmState b :=
  newInstLine (countError s (bytes "illegal operands for " ++ bytes (opname s.op) ++ bytes "\n"))

def unterminatedString (s : AsmState b) : AsmState b :=
  newInstLine (countError s (bytes "unterminated string\n"))

def badLine (s : AsmState b) : AsmState b :=
  newInstLine (countError s (bytes "contains unrecognizable characters\n"))

def lineIgnored (s : AsmState b) : AsmState b :=
  if s.pass = .first then showError s (bytes "WARNING: all text after .END ignored\n") else s

def cstring (s : List Byte) : List Byte := s.takeWhile (· ≠ 0)

/-- `read_raw_val`, with the message of its error. A number outside the range of `long`
makes `strtol` set ERANGE. -/
def readRawVal (b : Build) (text : List Byte) : Except (List Byte) (BitVec 64) :=
  let hex := text.head?.map tolower = some (byte 'x')
  let digits := if hex ∨ text.head? = some (byte '#') then text.tail else text
  let unreadable := bytes "cant recognise the number (" ++ cstring digits ++ bytes ")\n"
  match strtol (if hex then 16 else 10) digits with
  | some v =>
    if -2 ^ 63 ≤ v ∧ v < 2 ^ 63 then .ok (b.handles64BitLongs (BitVec.ofInt 64 v))
    else .error unreadable
  | none => .error unreadable

/-- `read_val`, and `read_signed_val`, whose body is the same. -/
def readVal (b : Build) (text : List Byte) (bits : Nat) : Except (List Byte) (BitVec 64) :=
  (readRawVal b text).bind fun v =>
    if b.checkOutOfRange v bits then .error (bytes "constant outside of allowed range\n")
    else if bits ≠ b.loadRegBitCount ∧ v &&& (1#64 <<< (bits - 1)) ≠ 0 then
      .ok (v ||| ~~~((1#64 <<< bits) - 1))
    else .ok v

def readUnsignedVal (b : Build) (text : List Byte) (bits : Nat) :
    Except (List Byte) (BitVec 64) :=
  (readRawVal b text).bind fun v =>
    if v.toInt < 0 then .error (bytes "unsigned constant expected\n")
    else if b.checkOutOfRangeUnsigned v bits then
      .error (bytes "constant outside of allowed range\n")
    else .ok v

/-- An `int` stored through a pointer to the low half of a `long`. -/
def storeInt (old v : BitVec 64) : BitVec 64 := (old &&& 0xffffffff00000000) ||| (v &&& 0xffffffff)

/-- A reader or a look-up that fails has shown its error and counted it. -/
def orError (s : AsmState b) (otherwise : BitVec 64) :
    Except (List Byte) (BitVec 64) → BitVec 64 × AsmState b
  | .ok v => (v, s)
  | .error text => (otherwise, countError s text)

/-- `(void)read_signed_val (text, &val, bits)`. -/
def readSignedInto (s : AsmState b) (text : List Byte) (bits : Nat) (val : BitVec 64) :
    BitVec 64 × AsmState b :=
  orError s val ((readVal b text bits).map (storeInt val))

def readUnsignedInto (s : AsmState b) (text : List Byte) (bits : Nat) (val : BitVec 64) :
    BitVec 64 × AsmState b :=
  orError s val ((readUnsignedVal b text bits).map (storeInt val))

/-- `(void)read_val (text, &val, LC3_LOAD_REG_BIT_COUNT)`. -/
def readLoadInto (s : AsmState b) (text : List Byte) (val : BitVec 64) : BitVec 64 × AsmState b :=
  orError s val (readVal b text b.loadRegBitCount)

def writeValue (s : AsmState b) (val : BitVec 64) : Step b :=
  let thisLoc := s.codeLoc
  let s := { s with codeLoc := (s.codeLoc + 1) % 0x10000 }
  if s.codeLoc = 0 then
    .error (.exit (showError s (bytes "More code than available address space.\n")))
  else if s.pass = .first then .ok s
  else
    let s := { s with objout := s.objout ++ [b.swap val] }
    -- the first word is the offset and not listed
    if s.sawOrig = 0 then .ok s else .ok { s with lstout := s.lstout ++ [(thisLoc, val)] }

def symName (name : List Byte) : List Byte :=
  name.takeWhile fun c => c ≠ 0 && !isspace c && c ≠ byte ':' && c ≠ byte ';'

/-- `find_label`. Everything except a load of the full width is relative to PC. -/
def findLabel (s : AsmState b) (optarg : List Byte) (bits : Nat) : BitVec 64 × AsmState b :=
  let name := symName optarg
  if s.pass = .first then (0, s)
  else orError s 0 <|
    match findSymbol s.symbols name with
    | some label =>
      if bits ≠ b.loadRegBitCount then
        let limit : Int := 2 ^ (bits - 1)
        let value := label.addr - (s.codeLoc + 1)
        if value < -limit ∨ value ≥ limit then
          .error (bytes "label \"" ++ name ++ bytes "\" at distance " ++
            bytes (toString value) ++ bytes " (allowed range is " ++ bytes (toString (-limit)) ++
            bytes " to " ++ bytes (toString (limit - 1)) ++ bytes ")\n")
        else .ok (BitVec.ofInt 64 value)
      else .ok (BitVec.ofInt 64 label.addr)
    | none => .error (bytes "unknown label \"" ++ name ++ bytes "\"\n")

def writeInstructionValue (s : AsmState b) (val : BitVec 64) : Step b :=
  if b.instrBitCount ≠ 16 then
    let word := (Converter.instrConvert 16 b.instrBitCount val).setWidth b.registerBits
    writeValue s (word.setWidth 64)
  else writeValue s val

/-- `while (val-- > 0) write_value (0x0000, 0)`, and the loop of `.BLKWTO`. -/
def writeZeros (s : AsmState b) : Nat → Step b
  | 0 => .ok s
  | n + 1 => (writeValue s 0).bind fun s => writeZeros s n

/-- The value written for the character behind a backslash. -/
def escape (c : Byte) : BitVec 64 :=
  if c = byte 'a' then 7 else if c = byte 'b' then 8 else if c = byte 'e' then 27
  else if c = byte 'f' then 12 else if c = byte 'n' then 10 else if c = byte 'r' then 13
  else if c = byte 't' then 9 else if c = byte 'v' then 11
  else c.signExtend 64

/-- The loop of `.STRINGZ` from the character behind the opening quote. It looks for the
closing quote only, not for the end of the token. -/
def writeString (s : AsmState b) : List Byte → Step b
  | [] => .error .undefined
  | c :: cs =>
    if c = byte '"' then writeValue s 0
    else if c = byte '\\' then
      match cs with
      | [] => .error .undefined
      | e :: cs => (writeValue s (escape e)).bind fun s => writeString s cs
    else if c = byte '\r' then
      let s := { s with lineNum := s.lineNum + 1 }
      match cs with
      | [] => .error .undefined
      | d :: rest =>
        if d = byte '\n' then (writeValue s (d.signExtend 64)).bind fun s => writeString s rest
        else (writeValue s (c.signExtend 64)).bind fun s => writeString s (d :: rest)
    else
      let s := if c = byte '\n' then { s with lineNum := s.lineNum + 1 } else s
      (writeValue s (c.signExtend 64)).bind fun s => writeString s cs

/-- To the start of the next operand: over this one, blanks, one comma and blanks. -/
def nextOperand (o : List Byte) : List Byte :=
  let o := (o.dropWhile fun c => c ≠ byte ',' && !isspace c).dropWhile isspace
  (if o.head? = some (byte ',') then o.tail else o).dropWhile isspace

/-- `o[1] - '0'`. -/
def regDigit (o : List Byte) : BitVec 64 :=
  ((o.getD 1 0).signExtend 64) - 48

def dtuSLL : BitVec 64 := 0
def dtuSRA : BitVec 64 := 1
def dtuDIV : BitVec 64 := 2
def dtuMOD : BitVec 64 := 3
def dtuMUL : BitVec 64 := 4
def dtuSLLI : BitVec 64 := 5
def dtuSRAI : BitVec 64 := 6

/-- The `.ORIG` branch. `read_val` stores a `long` over the `int` code_loc. -/
def generateOrig (s : AsmState b) (o1 : List Byte) : Step b :=
  if s.sawOrig = 0 then
    match readVal b o1 b.loadRegBitCount with
    | .error text => .ok (newInstLine { countError s text with codeLoc := 0x3000, sawOrig := 1 })
    | .ok v =>
      let origin := (v.setWidth 32).toInt
      (writeValue { s with codeLoc := origin } (BitVec.ofInt 64 origin)).map fun s =>
        newInstLine { s with codeLoc := s.codeLoc - 1, sawOrig := 1 }
  else if s.sawOrig = 1 then
    .ok (newInstLine { showError s (bytes "multiple .ORIG directives found\n") with sawOrig := 2 })
  else .ok (newInstLine s)

/-- The switch over the operation, with the operands read before it. -/
def generateOp (s : AsmState b) (operands : Operands) (o1 o3 : List Byte)
    (r1 r2 r3 val : BitVec 64) : Step b :=
  -- the register fields of the second and third nibble
  let rr := (r1 <<< 9) ||| (r2 <<< 6)
  match s.op with
  | .ADD =>
    if operands = .RRI then
      let (val, s) := readSignedInto s o3 5 val
      writeInstructionValue s (0x1020 ||| rr ||| (val &&& 0x1f))
    else writeInstructionValue s (0x1000 ||| rr ||| r3)
  | .AND =>
    if operands = .RRI then
      let (val, s) := readSignedInto s o3 5 val
      writeInstructionValue s (0x5020 ||| rr ||| (val &&& 0x1f))
    else writeInstructionValue s (0x5000 ||| rr ||| r3)
  | .BR =>
    let (val, s) := if operands = .I then readSignedInto s o1 9 val else findLabel s o1 9
    writeInstructionValue s (s.ccode ||| (val &&& 0x1ff))
  | .JMP => writeInstructionValue s (0xc000 ||| (r1 <<< 6))
  | .JSR =>
    let (val, s) := if operands = .I then readSignedInto s o1 11 val else findLabel s o1 11
    writeInstructionValue s (0x4800 ||| (val &&& 0x7ff))
  | .JSRR => writeInstructionValue s (0x4000 ||| (r1 <<< 6))
  | .LD => writeInstructionValue s (0x2000 ||| (r1 <<< 9) ||| (val &&& 0x1ff))
  | .LDI => writeInstructionValue s (0xa000 ||| (r1 <<< 9) ||| (val &&& 0x1ff))
  | .LDR =>
    let (val, s) := readSignedInto s o3 6 val
    writeInstructionValue s (0x6000 ||| rr ||| (val &&& 0x3f))
  | .LEA => writeInstructionValue s (0xe000 ||| (r1 <<< 9) ||| (val &&& 0x1ff))
  | .NOT => writeInstructionValue s (0x903f ||| rr)
  | .RTI =>
    let (val, s) := readSignedInto s o3 6 val
    writeInstructionValue s (0x8000 ||| rr ||| (val &&& 0x3f))
  | .ST => writeInstructionValue s (0x3000 ||| (r1 <<< 9) ||| (val &&& 0x1ff))
  | .STI => writeInstructionValue s (0xb000 ||| (r1 <<< 9) ||| (val &&& 0x1ff))
  | .STR =>
    let (val, s) := readSignedInto s o3 6 val
    writeInstructionValue s (0x7000 ||| rr ||| (val &&& 0x3f))
  | .TRAP =>
    let (val, s) := readUnsignedInto s o1 8 val
    writeInstructionValue s (0xf000 ||| (val &&& 0xff))
  | .GETC => writeInstructionValue s 0xf020
  | .HALT => writeInstructionValue s 0xf025
  | .IN => writeInstructionValue s 0xf023
  | .OUT => writeInstructionValue s 0xf021
  | .PUTS => writeInstructionValue s 0xf022
  | .PUTSP => writeInstructionValue s 0xf024
  | .FILL =>
    if operands = .I then
      let (val, s) := readLoadInto s o1 val
      writeValue s (val &&& b.valueMask)
    else
      let (val, s) := findLabel s o1 b.loadRegBitCount
      writeValue s val
  | .RET => writeInstructionValue s 0xc1c0
  | .STRINGZ => writeString s o1.tail
  | .BLKW =>
    let (val, s) := readLoadInto s o1 val
    writeZeros s (val &&& addrMask).toNat
  | .NONE | .ORIG | .END => .ok s
  | .SLL =>
    if operands = .RRI then
      let (val, s) := readUnsignedInto s o3 3 val
      writeInstructionValue s (0xd000 ||| rr ||| (dtuSLLI <<< 3) ||| (val &&& 0x7))
    else writeInstructionValue s (0xd000 ||| rr ||| (dtuSLL <<< 3) ||| r3)
  | .SRA =>
    if operands = .RRI then
      let (val, s) := readUnsignedInto s o3 3 val
      writeInstructionValue s (0xd000 ||| rr ||| (dtuSRAI <<< 3) ||| (val &&& 0x7))
    else writeInstructionValue s (0xd000 ||| rr ||| (dtuSRA <<< 3) ||| r3)
  | .DIV => writeInstructionValue s (0xd000 ||| rr ||| (dtuDIV <<< 3) ||| r3)
  | .MOD => writeInstructionValue s (0xd000 ||| rr ||| (dtuMOD <<< 3) ||| r3)
  | .MUL => writeInstructionValue s (0xd000 ||| rr ||| (dtuMUL <<< 3) ||| r3)
  | .NOP => writeInstructionValue s 0
  | .BLKWTO =>
    let (val, s) := readLoadInto s o1 val
    let target : Int := (val &&& addrMask).toNat
    if s.codeLoc > target then .ok (countError s (bytes "requested address is in the past\n"))
    else writeZeros s (target - s.codeLoc).toNat

/-- `generate_instruction`. `opstr` is the buffer from the operands on: the token, the
zero the scanner ends it with, and the characters behind. -/
def generateInstruction (stale : Stale) (s : AsmState b) (operands : Operands)
    (opstr : List Byte) : Step b :=
  if ¬ (opFormatOk s.op).testBit operands.code then .ok (badOperands s)
  else
    let o1 := opstr.dropWhile isspace
    let o2 := nextOperand o1
    let o3 := nextOperand o2
    if s.op = .ORIG then generateOrig s o1
    else if s.sawOrig = 0 then
      .ok { newInstLine (countError s (bytes "instruction appears before .ORIG\n")) with
        sawOrig := 2 }
    else
      let val := stale s.pass s.lineNum
      -- the operands of the forms that `pre_parse` marks with PP_I2 and PP_L2
      let (val, s) := match operands with
        | .RI => readSignedInto s o2 9 val
        | .RL => findLabel s o2 9
        | _ => (val, s)
      (generateOp s operands o1 o3 (regDigit o1) (regDigit o2) (regDigit o3) val).map newInstLine

end

end LC3Tools.Assembler
