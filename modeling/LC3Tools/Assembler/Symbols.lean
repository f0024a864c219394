import LC3Tools.Assembler.Text
import Mathlib.Logic.Basic

/-! The symbol table of `symbol.c`: chains hashed by the lower-case spelling. -/
namespace LC3Tools.Assembler

structure Symbol where
  name : List Byte
  addr : Int

def symbolHashSize : Nat := 997

/-- `lc3_sym_hash`, one chain for each hash value. -/
abbrev SymbolTable := Nat → List Symbol

def SymbolTable.empty : SymbolTable := fun _ => []

def symbolHash (symbol : List Byte) : Nat :=
  symbol.foldl (fun h b => (h * (tolower b).toNat) % symbolHashSize) 1

/-- `strcasecmp` returns zero. -/
def sameName (a b : List Byte) : Bool := a.map tolower = b.map tolower

def findSymbol (table : SymbolTable) (symbol : List Byte) : Option Symbol :=
  (table (symbolHash symbol)).find? fun sym => sameName symbol sym.name

/-- The new address goes to the symbol that was found. -/
def setAddr (symbol : List Byte) (addr : Int) : List Symbol → List Symbol
  | [] => []
  | sym :: rest =>
    if sameName symbol sym.name then { sym with addr := addr } :: rest
    else sym :: setAddr symbol addr rest

/-- `add_symbol`, none for its result -1. -/
def addSymbol (table : SymbolTable) (symbol : List Byte) (addr : Int) (dupOk : Bool) :
    Option SymbolTable :=
  let h := symbolHash symbol
  match findSymbol table symbol with
  | none => some fun i => if i = h then ⟨symbol, addr⟩ :: table i else table i
  | some _ =>
    if dupOk then some fun i => if i = h then setAddr symbol addr (table i) else table i
    else none

theorem sameName_iff {a b : List Byte} : sameName a b ↔ a.map tolower = b.map tolower := by
  simp [sameName]

theorem symbolHash_same {a b : List Byte} (same : sameName a b) : symbolHash a = symbolHash b := by
  have spelled (s : List Byte) (h : Nat) :
      s.foldl (fun h b => (h * (tolower b).toNat) % symbolHashSize) h =
        (s.map tolower).foldl (fun h b => (h * b.toNat) % symbolHashSize) h := by
    rw [List.foldl_map]
  rw [symbolHash, symbolHash, spelled, spelled, sameName_iff.mp same]

theorem findSymbol_addSymbol {table table' : SymbolTable} {symbol : List Byte} {addr : Int}
    (added : addSymbol table symbol addr false = some table') (name : List Byte) :
    findSymbol table' name =
      if sameName name symbol then some ⟨symbol, addr⟩ else findSymbol table name := by
  simp only [addSymbol, Bool.false_eq_true, if_false] at added
  split at added
  · cases added
    simp only [findSymbol]
    by_cases same : sameName name symbol
    · rw [if_pos (symbolHash_same same), if_pos same]
      simp [same]
    · rw [if_neg same]
      split
      · simp [same]
      · rfl
  · cases added

/-- Every symbol that can be found stays what it is. -/
def Keeps (table table' : SymbolTable) : Prop :=
  ∀ name sym, findSymbol table name = some sym → findSymbol table' name = some sym

theorem Keeps.refl (table : SymbolTable) : Keeps table table := fun _ _ found => found

theorem Keeps.trans {t t' t'' : SymbolTable} (first : Keeps t t') (second : Keeps t' t'') :
    Keeps t t'' :=
  fun name sym found => second name sym (first name sym found)

theorem findSymbol_none_of_addSymbol {table table' : SymbolTable} {symbol : List Byte} {addr : Int}
    (added : addSymbol table symbol addr false = some table') : findSymbol table symbol = none := by
  simp only [addSymbol, Bool.false_eq_true, if_false] at added
  split at added
  · assumption
  · cases added

theorem findSymbol_congr {table : SymbolTable} {a b : List Byte} (same : sameName a b) :
    findSymbol table a = findSymbol table b := by
  have folded := sameName_iff.mp same
  simp only [findSymbol, symbolHash_same same, sameName, folded]

/-- A new symbol does not hide an old one, since its name was not found before. -/
theorem keeps_addSymbol {table table' : SymbolTable} {symbol : List Byte} {addr : Int}
    (added : addSymbol table symbol addr false = some table') : Keeps table table' := by
  intro name sym found
  rw [findSymbol_addSymbol added]
  split
  · rename_i same
    rw [findSymbol_congr same, findSymbol_none_of_addSymbol added] at found
    cases found
  · exact found

end LC3Tools.Assembler
