import LC3Tools.Sim.Processor

/-! The standard streams both simulators run on, and the three objects `main.cpp`
hands to the C++ simulator: `SimpleIO`, `SimpleVM` and `SimpleOp`. -/
namespace LC3Tools

/-- `polls` answers the calls of `select` in turn; once used up nothing is pressed. -/
structure Console where
  input : List (BitVec 8)
  polls : List Bool
  output : List (BitVec 8)

/-- The `int` of `getchar`: the next byte, or -1 at the end of the input. -/
def Console.getchar (c : Console) : BitVec 32 × Console :=
  match c.input with
  | [] => (-1, c)
  | b :: bs => (b.setWidth 32, { c with input := bs })

def Console.putchar (c : Console) (b : BitVec 8) : Console :=
  { c with output := c.output ++ [b] }

def Console.select (c : Console) : Bool × Console :=
  match c.polls with
  | [] => (false, c)
  | p :: ps => (p, { c with polls := ps })

namespace Sim

structure SimpleHost (maxMemoryAddress w : Nat) where
  memory : BitVec w → BitVec w
  console : Console

/-- The text `SimpleOp` prints for RTI; `%ld` shows a register as a signed `long`. -/
def rtiOperationText {w : Nat} (v1 v2 v : BitVec w) : List (BitVec 8) :=
  let shown (x : BitVec w) : String := toString (x.setWidth 64).toInt
  let text := "RTI Operation reg1 = " ++ shown v1 ++ " reg2 = " ++ shown v2 ++ " val = " ++
    shown v ++ "\n"
  text.toList.map fun ch => BitVec.ofNat 8 ch.toNat

instance (maxMemoryAddress w : Nat) : Host (SimpleHost maxMemoryAddress w) w where
  read h address out :=
    if address.toNat < maxMemoryAddress then (.success, h.memory address)
    else (.errorAddressOutOfRange, out)
  write h value address :=
    if address.toNat < maxMemoryAddress then
      (.success, { h with memory := fun a => if a = address then value else h.memory a })
    else (.errorAddressOutOfRange, h)
  getChar h :=
    let (c, console) := h.console.getchar
    (c.setWidth 8, { h with console := console })
  putChar h c := { h with console := h.console.putchar c }
  checkKeyboard h :=
    let (pressed, console) := h.console.select
    (pressed, { h with console := console })
  operation h v1 v2 v :=
    (.success, { h with console :=
      { h.console with output := h.console.output ++ rtiOperationText v1 v2 v } })

end Sim

end LC3Tools
