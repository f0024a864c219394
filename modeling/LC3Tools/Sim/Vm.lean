import LC3Tools.Sim.Console

/-! The C simulator `vm.c` in its 16-bit build: condition bits are kept in PSR and
set eagerly, memory is an array, and the streams are the standard ones. -/
namespace LC3Tools.Vm

/-- `vm_result`. -/
inductive Result where
  | success | opcodeNop | resAddrMCR | opcodeNotImplemented | errorAddresOutOfRange
  deriving DecidableEq, Repr

/-- `struct vm_impl`. The entries R0 to R7 of `reg` are a function of the index. -/
structure VmImpl where
  mem : BitVec 16 → BitVec 16
  reg : Fin 8 → BitVec 16
  pc : BitVec 16
  psr : BitVec 16
  console : Console

def addrMax : Nat := 65535
def signBit : BitVec 16 := 1#16 <<< 15
def statusBit : BitVec 16 := 1#16 <<< 15
def addrKBSR : BitVec 16 := 0xfe00
def addrKBDR : BitVec 16 := 0xfe02
def addrDSR : BitVec 16 := 0xfe04
def addrDDR : BitVec 16 := 0xfe06
def addrMCR : BitVec 16 := 0xfffe

def sextend (val : BitVec 16) (n : Nat) : BitVec 16 :=
  let m : BitVec 16 := 1#16 <<< (n - 1)
  let val := val &&& ((1#16 <<< n) - 1)
  (val ^^^ m) - m

def VmImpl.setReg (vm : VmImpl) (r : Fin 8) (v : BitVec 16) : VmImpl :=
  { vm with reg := fun i => if i = r then v else vm.reg i }

def vmMemRead (vm : VmImpl) (addr out : BitVec 16) : Result × BitVec 16 :=
  if addr.toNat ≥ addrMax then (.errorAddresOutOfRange, out) else (.success, vm.mem addr)

def vmRead (vm : VmImpl) (addr out : BitVec 16) : Result × BitVec 16 × VmImpl :=
  if addr = addrKBSR then
    let (pressed, c) := vm.console.select
    (.success, if pressed then statusBit else 0, { vm with console := c })
  else if addr = addrKBDR then
    let (pressed, c) := vm.console.select
    if pressed then
      let (ch, c') := c.getchar
      (.success, ch.setWidth 16, { vm with console := c' })
    else (.success, 0, { vm with console := c })
  else if addr = addrDSR then (.success, statusBit, vm)
  else if addr = addrDDR then (.success, 0, vm)
  else
    let (result, out') := vmMemRead vm addr out
    (result, out', vm)

def vmWrite (vm : VmImpl) (addr val : BitVec 16) : Result × VmImpl :=
  if addr = addrKBSR ∨ addr = addrKBDR ∨ addr = addrDSR then (.success, vm)
  else if addr = addrDDR then (.success, { vm with console := vm.console.putchar (val.setWidth 8) })
  else if addr.toNat ≥ addrMax then (.errorAddresOutOfRange, vm)
  else (.success, { vm with mem := fun a => if a = addr then val else vm.mem a })

def vmSignFlag (val : BitVec 16) : Flag :=
  if val = 0 then .zero else if val &&& signBit ≠ 0 then .negative else .positive

def vmSetcc (vm : VmImpl) (r : Fin 8) : VmImpl :=
  { vm with psr := BitVec.ofNat 16 (vmSignFlag (vm.reg r)).bits }

/-- The end of LD, LDI and LDR. -/
def VmImpl.load (vm : VmImpl) (dr : Fin 8) (addr : BitVec 16) : Result × VmImpl :=
  let (ret, out, vm') := vmRead vm addr (vm.reg dr)
  let vm'' := vm'.setReg dr out
  if ret = .success then (.success, vmSetcc vm'' dr) else (ret, vm'')

/-- `vm_perform`. The program counter already points behind the instruction. -/
def vmPerform (vm : VmImpl) (instr : BitVec 16) : Result × VmImpl :=
  let r1 := regIndex ((instr >>> 9) &&& 0b111)
  let r2 := regIndex ((instr >>> 6) &&& 0b111)
  let r3 := regIndex (instr &&& 0b111)
  let pcOffset9 := vm.pc + sextend instr 9
  let baseOffset6 := vm.reg r2 + sextend instr 6
  let operand := if instr &&& (1#16 <<< 5) ≠ 0 then sextend instr 5 else vm.reg r3
  match Opcode.ofCode (instr >>> 12).toNat with
  | .ADD => (.success, vmSetcc (vm.setReg r1 (vm.reg r2 + operand)) r1)
  | .AND => (.success, vmSetcc (vm.setReg r1 (vm.reg r2 &&& operand)) r1)
  | .BR =>
    let currentNzp := vm.psr &&& 0b111
    let desiredNzp := (instr >>> 9) &&& 0b111
    let vm' := if currentNzp &&& desiredNzp ≠ 0 then { vm with pc := pcOffset9 } else vm
    if instr = 0 then (.opcodeNop, vm') else (.success, vm')
  | .JMP => (.success, { vm with pc := vm.reg r2 })
  | .JSR =>
    let vm' := vm.setReg 7 vm.pc
    if instr &&& (1#16 <<< 11) ≠ 0 then (.success, { vm' with pc := vm.pc + sextend instr 11 })
    else (.success, { vm' with pc := vm.reg r2 })
  | .LD => vm.load r1 pcOffset9
  | .LDI =>
    let (ret, addr, vm') := vmRead vm pcOffset9 0
    if ret ≠ .success then (ret, vm') else vm'.load r1 addr
  | .LDR => vm.load r1 baseOffset6
  | .LEA => (.success, vmSetcc (vm.setReg r1 pcOffset9) r1)
  | .NOT => (.success, vmSetcc (vm.setReg r1 (~~~ vm.reg r2)) r1)
  | .RTI => (.opcodeNotImplemented, vm)
  | .ST => vmWrite vm pcOffset9 (vm.reg r1)
  | .STI =>
    let (ret, addr, vm') := vmRead vm pcOffset9 0
    if ret ≠ .success then (ret, vm') else vmWrite vm' addr (vm'.reg r1)
  | .STR => vmWrite vm baseOffset6 (vm.reg r1)
  | .TRAP =>
    let trapvect8 := instr &&& 0xff
    if trapvect8 = 0x20 then
      let (ch, c) := vm.console.getchar
      (.success, { (vm.setReg 0 (ch.setWidth 16)) with console := c })
    else
      let (ret, out, vm') := vmRead (vm.setReg 7 vm.pc) trapvect8 vm.pc
      (ret, { vm' with pc := out })
  | .RES => (.opcodeNotImplemented, vm)

/-- One turn of the loop of `vm_run`. The loop is left unless it returns success. -/
def vmCycle (vm : VmImpl) : Result × VmImpl :=
  let (res, stop, vm₁) := vmRead vm addrMCR 0
  if res ≠ .success then (res, vm₁)
  else if stop &&& statusBit = 0 then (.resAddrMCR, vm₁)
  else
    let (res, instr, vm₂) := vmRead vm₁ vm₁.pc 0
    if res ≠ .success then (res, vm₂)
    else vmPerform { vm₂ with pc := vm₂.pc + 1 } instr

/-- The first turns of `vm_run`; the loop itself has no bound. -/
def vmRun : Nat → VmImpl → Result × VmImpl
  | 0, vm => (.success, vm)
  | n + 1, vm =>
    let (res, vm') := vmCycle vm
    if res = .success then vmRun n vm' else (res, vm')

end LC3Tools.Vm
