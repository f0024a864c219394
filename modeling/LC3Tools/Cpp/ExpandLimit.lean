import LC3Tools.Cpp.ExpandEnds

/-! The bound on the size of a hideset is the bound on the macros with which every expansion
ends. -/
namespace LC3Tools.Cpp

def Env.macros (env : Env) : Finset Nat :=
  (Finset.range env.table.length).filter fun np => env.table[np]?.any Nlist.expands

/-! A chain of macros: each but the last of 31 stands for the next, and the last for itself. -/
def chainName (i : Nat) : List Char := List.replicate (i + 1) 'M'

def chainMacro (i : Nat) : Nlist where
  name := chainName i
  vp := [⟨.NAME, false, 0, 0, chainName (min (i + 1) 30)⟩]
  ap := none
  val := .other
  isDefined := true
  isMac := false
  plain t mem := by rw [List.mem_singleton.mp mem]

def chain (n : Nat) : Env where
  table := (List.range n).map chainMacro
  lex text := ⟨.NAME, false, 0, 0, text⟩
  builtinText _ := []

section
variable {n k : Nat} {t : Token} {st : Globals}

end

end LC3Tools.Cpp
