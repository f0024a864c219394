import LC3Tools.Assembler.Numerals
import LC3Tools.Assembler.Symbols

/-! The labels that the back end makes up. One counter numbers them, and it starts again
with every file that is compiled. The labels of constants, strings, tables and static
locals carry the name of the file behind the number; those that `emit2` and `blkloop` print
inside an operation do not. -/
namespace LC3Tools.Lcc
open Assembler

def isalnum (c : Byte) : Bool := isdigit c || (byte 'a' ≤ tolower c && tolower c ≤ byte 'z')

/-- What `progbeg` makes of the path of the first file. -/
def filename (firstfile : List Byte) : List Byte :=
  (firstfile.takeWhile (· ≠ byte '.')).map fun c => if isalnum c then c else byte '_'

inductive SClass where
  | auto | static
  deriving DecidableEq, Repr

structure CSymbol where
  name : List Byte
  scope : Nat
  sclass : SClass
  generated : Bool

/-- The enumerators of a scope. The blocks inside a function count on from `LOCAL`. -/
def LABELS : Nat := 2
def GLOBAL : Nat := 3
def LOCAL : Nat := 5

/-- `defsymbol`: the name in the file, and the counter behind it. -/
def defsymbol (filename : List Byte) (label : Nat) (p : CSymbol) : List Byte × Nat :=
  if LOCAL ≤ p.scope ∧ p.sclass = .static then
    (bytes "L" ++ decimal label ++ bytes "_" ++ filename, label + 1)
  else if p.generated then (bytes "L" ++ p.name ++ bytes "_" ++ filename, label)
  else (p.name, label)

/-- `lc3_lab`. -/
def lc3Lab (i : Nat) : List Byte := bytes "L" ++ decimal i

/-- The operations that print labels of their own. -/
inductive Branching where
  | compare | lsh | rsh | mul | div | mod | blkloop
  deriving DecidableEq, Repr

/-- How often each calls `genlabel`, and which of the numbers it prints as labels. -/
def Branching.labels : Branching → Nat × List Nat
  | .compare => (1, [0])
  | .lsh => (2, [0, 1])
  | .rsh => (8, [1, 0, 3, 4, 5, 6, 7, 2])
  | .mul => (3, [0, 1, 2])
  | .div => (6, [1, 2, 3, 4, 5, 0])
  | .mod => (6, [1, 2, 4, 5, 0])
  | .blkloop => (1, [0])

/-- What a compilation does with numbers and labels. -/
inductive Event where
  /-- The front end takes numbers for the branches of a statement. -/
  | genlabel (n : Nat)
  /-- `genident`: an out-of-line constant, a string literal or a switch table. -/
  | genident
  /-- A static object, and the scope of its declaration. -/
  | object (name : List Byte) (scope : Nat)
  /-- An object that other files may use. -/
  | global (name : List Byte)
  /-- `function`, with a word for the address in front of the label. -/
  | function (name : List Byte) (sclass : SClass)
  /-- The rule for LABELV, with the word that holds the address. -/
  | label (lab : Nat)
  | emit2 (op : Branching)

/-- The counter, the labels that are printed for internal use, and the names that other files may
use. -/
structure Output where
  next : Nat
  labels : List (List Byte)
  user : List (List Byte)

def Output.all (s : Output) : List (List Byte) := s.labels ++ s.user

def Event.step (filename : List Byte) (s : Output) : Event → Output
  | .genlabel n => { s with next := s.next + n }
  | .genident =>
    let (name, next) := defsymbol filename (s.next + 1) ⟨decimal s.next, GLOBAL, .static, true⟩
    { s with next := next, labels := s.labels ++ [name] }
  | .object name scope =>
    let (name, next) := defsymbol filename s.next ⟨name, scope, .static, false⟩
    { s with next := next, labels := s.labels ++ [name] }
  | .global name =>
    let (name, next) := defsymbol filename s.next ⟨name, GLOBAL, .auto, false⟩
    { s with next := next, user := s.user ++ [name] }
  | .function name sclass =>
    let (name, next) := defsymbol filename s.next ⟨name, GLOBAL, sclass, false⟩
    if sclass = .static then { s with next := next, labels :=
      s.labels ++ [bytes "lc3_" ++ name, name] }
    else ⟨next, s.labels ++ [bytes "lc3_" ++ name], s.user ++ [name]⟩
  | .label lab =>
    let (name, next) := defsymbol filename s.next ⟨decimal lab, LABELS, .auto, true⟩
    { s with next := next, labels := s.labels ++ [name, bytes "lc3_" ++ name] }
  | .emit2 op =>
    { s with next := s.next + op.labels.1, labels :=
      s.labels ++ op.labels.2.map fun i => lc3Lab (s.next + i) }

def compile (firstfile : List Byte) (events : List Event) : Output :=
  events.foldl (Event.step (filename firstfile)) ⟨1, [], []⟩

/-- A label by where its name comes from. -/
inductive Label where
  | bare (n : Nat)
  | tagged (n : Nat)
  | code (n : Nat)
  | address (function : List Byte)
  | named (name : List Byte)
  | user (name : List Byte)
  deriving DecidableEq

def Label.internal : Label → Bool
  | .user _ => false
  | _ => true

def Label.text (filename : List Byte) : Label → List Byte
  | .bare n => lc3Lab n
  | .tagged n => bytes "L" ++ decimal n ++ bytes "_" ++ filename
  | .code n => bytes "lc3_" ++ (bytes "L" ++ decimal n ++ bytes "_" ++ filename)
  | .address function => bytes "lc3_" ++ function
  | .named name | .user name => name

/-- The labels of the events from a value of the counter on. They do not depend on the file. -/
def printed : Nat → List Event → List Label
  | _, [] => []
  | next, .genlabel n :: es => printed (next + n) es
  | next, .genident :: es => .tagged next :: printed (next + 1) es
  | next, .object name scope :: es =>
    if LOCAL ≤ scope then .tagged next :: printed (next + 1) es else .named name :: printed next es
  | next, .global name :: es => .user name :: printed next es
  | next, .function name sclass :: es =>
    .address name :: (if sclass = .static then .named name else .user name) :: printed next es
  | next, .label lab :: es => .tagged lab :: .code lab :: printed next es
  | next, .emit2 op :: es =>
    op.labels.2.map (fun i => .bare (next + i)) ++ printed (next + op.labels.1) es

section run
variable {filename : List Byte} {es : List Event} {n : Nat}

theorem foldl_labels (s : Output) :
    (es.foldl (Event.step filename) s).labels =
        s.labels ++ ((printed s.next es).filter Label.internal).map (Label.text filename) ∧
      (es.foldl (Event.step filename) s).user =
        s.user ++ ((printed s.next es).filter fun l => !l.internal).map (Label.text filename) := by
  induction es generalizing s with
  | nil => simp [printed]
  | cons e es ih =>
    rw [List.foldl_cons, (ih _).1, (ih _).2]
    cases e with
    | genlabel n => exact ⟨rfl, rfl⟩
    | genident =>
      simp [Event.step, defsymbol, printed, List.filter_cons, Label.text, Label.internal,
        GLOBAL, LOCAL]
    | object name scope =>
      by_cases inner : LOCAL ≤ scope <;>
        simp [Event.step, defsymbol, printed, List.filter_cons, Label.text, Label.internal, inner]
    | global name =>
      simp [Event.step, defsymbol, printed, Label.text, Label.internal, GLOBAL, LOCAL]
    | function name sclass =>
      cases sclass <;> simp [Event.step, defsymbol, printed, List.filter_cons, Label.text,
        Label.internal, GLOBAL, LOCAL]
    | label lab =>
      simp [Event.step, defsymbol, printed, List.filter_cons, Label.text, Label.internal,
        LABELS, LOCAL]
    | emit2 op =>
      have bare (n : Nat) : (op.labels.2.map fun i => Label.bare (n + i)).filter Label.internal =
          op.labels.2.map fun i => .bare (n + i) :=
        List.filter_eq_self.mpr fun l inside => by
          obtain ⟨i, -, rfl⟩ := List.mem_map.mp inside
          rfl
      have none (n : Nat) :
          ((op.labels.2.map fun i => Label.bare (n + i)).filter fun l => !l.internal) = [] :=
        List.filter_eq_nil_iff.mpr fun l inside => by
          obtain ⟨i, -, rfl⟩ := List.mem_map.mp inside
          simp [Label.internal]
      simp only [Event.step, printed, List.filter_append, bare, none, List.map_append, List.map_map,
        List.append_assoc,
        List.nil_append, and_true]
      rfl

theorem mem_labels {firstfile x : List Byte} : x ∈ (compile firstfile es).labels ↔
    ∃ l ∈ printed 1 es, l.internal ∧ l.text (Lcc.filename firstfile) = x := by
  rw [compile, (foldl_labels _).1, List.nil_append]
  simp [and_assoc]

/-- A label in the code stands behind the word with its address, and so does a function. -/
theorem labels_together {next : Nat} :
    (.code n ∈ printed next es → .tagged n ∈ printed next es) ∧
      ∀ f, .address f ∈ printed next es → .named f ∈ printed next es ∨
        .user f ∈ printed next es := by
  induction es generalizing next with
  | nil => simp [printed]
  | cons e es ih =>
    cases e with
    | genlabel k => exact ih
    | genident =>
      obtain ⟨code, address⟩ := @ih (next + 1)
      simp only [printed, List.mem_cons, reduceCtorEq, false_or]
      exact ⟨fun inside => .inr (code inside), address⟩
    | global name =>
      obtain ⟨code, address⟩ := @ih next
      simp only [printed, List.mem_cons, reduceCtorEq, false_or]
      exact ⟨code, fun f inside => (address f inside).imp_right .inr⟩
    | object name scope =>
      simp only [printed]
      split
      · obtain ⟨code, address⟩ := @ih (next + 1)
        simp only [List.mem_cons, reduceCtorEq, false_or]
        exact ⟨fun inside => .inr (code inside), address⟩
      · obtain ⟨code, address⟩ := @ih next
        simp only [List.mem_cons, reduceCtorEq, false_or]
        exact ⟨code, fun f inside => (address f inside).imp_left .inr⟩
    | function name sclass =>
      obtain ⟨code, address⟩ := @ih next
      cases sclass with
      | auto =>
        simp only [printed, reduceCtorEq, if_false, List.mem_cons, false_or, Label.address.injEq,
          Label.user.injEq]
        refine ⟨code, fun f inside => ?_⟩
        rcases inside with rfl | later
        · exact .inr (.inl rfl)
        · exact (address f later).imp_right .inr
      | static =>
        simp only [printed, if_true, List.mem_cons, reduceCtorEq, false_or, Label.address.injEq,
          Label.named.injEq]
        refine ⟨code, fun f inside => ?_⟩
        rcases inside with rfl | later
        · exact .inl (.inl rfl)
        · exact (address f later).imp_left .inr
    | label lab =>
      obtain ⟨code, address⟩ := @ih next
      simp only [printed, List.mem_cons, reduceCtorEq, false_or, Label.code.injEq,
        Label.tagged.injEq]
      exact ⟨Or.imp_right code, address⟩
    | emit2 op =>
      obtain ⟨code, address⟩ := @ih (next + op.labels.1)
      simp only [printed, List.mem_append, List.mem_map, reduceCtorEq, and_false, exists_false,
        false_or]
      exact ⟨code, address⟩

end run

section spelling
variable {n m : Nat} {tag other : List Byte}

theorem tolower_decimal (n : Nat) : (decimal n).map tolower = decimal n := by
  have digit : ∀ x, isdigit x → tolower x = x := by decide +kernel
  conv_rhs => rw [← List.map_id (decimal n)]
  exact List.map_congr_left fun x inside => digit x (isdigit_decimal inside)

theorem decimal_injective (same : decimal n = decimal m) : n = m := by
  rw [← digitsValue_decimal n, same, digitsValue_decimal]

theorem decimal_append {rest rest' : List Byte} (stop : ∀ x ∈ rest.head?, isdigit x = false)
    (stop' : ∀ x ∈ rest'.head?, isdigit x = false) (same : decimal n ++ rest = decimal m ++ rest') :
    n = m ∧ rest = rest' := by
  have number (k : Nat) {tail : List Byte} (ends : ∀ x ∈ tail.head?, isdigit x = false) :
      (decimal k ++ tail).takeWhile isdigit = decimal k := by
    rw [List.takeWhile_append_of_pos fun x inside => isdigit_decimal inside]
    cases tail with
    | nil => simp
    | cons x tail => simp [ends x rfl]
  have digits : decimal n = decimal m := by
    rw [← number n stop, same, number m stop']
  refine ⟨decimal_injective digits, ?_⟩
  rw [digits] at same
  exact List.append_cancel_left same

theorem text_lower (tag : List Byte) : ∀ l : Label, (l.text tag).map tolower =
    match l with
    | .bare n => byte 'l' :: decimal n
    | .tagged n => byte 'l' :: (decimal n ++ byte '_' :: tag.map tolower)
    | .code n => byte 'l' :: byte 'c' :: byte '3' :: byte '_' :: byte 'l' ::
        (decimal n ++ byte '_' :: tag.map tolower)
    | .address function => byte 'l' :: byte 'c' :: byte '3' :: byte '_' :: function.map tolower
    | .named name | .user name => name.map tolower := by
  have letter : (bytes "L").map tolower = [byte 'l'] := by decide
  have mark : (bytes "_").map tolower = [byte '_'] := by decide
  have front : (bytes "lc3_").map tolower = [byte 'l', byte 'c', byte '3', byte '_'] := by decide
  rintro (n | n | n | function | name | name) <;>
    simp [Label.text, lc3Lab, tolower_decimal, letter, mark, front]

theorem bare_same : sameName ((Label.bare n).text tag) ((Label.bare m).text other) → n = m := by
  rw [sameName_iff, text_lower, text_lower]
  exact fun same => decimal_injective (List.cons.inj same).2

theorem not_digit_mark : ∀ x ∈ (byte '_' :: tag).head?, isdigit x = false := by
  rintro x ⟨⟩
  decide

theorem tagged_same (same : sameName ((Label.tagged n).text tag) ((Label.tagged m).text other)) :
    n = m ∧ sameName tag other := by
  rw [sameName_iff, text_lower, text_lower] at same
  obtain ⟨number, rest⟩ := decimal_append not_digit_mark not_digit_mark (List.cons.inj same).2
  exact ⟨number, sameName_iff.mpr (List.cons.inj rest).2⟩

theorem code_same (same : sameName ((Label.code n).text tag) ((Label.code m).text other)) :
    n = m ∧ sameName tag other := by
  rw [sameName_iff, text_lower, text_lower] at same
  simp only [List.cons.injEq, true_and] at same
  obtain ⟨number, rest⟩ := decimal_append not_digit_mark not_digit_mark same
  exact ⟨number, sameName_iff.mpr (List.cons.inj rest).2⟩

theorem bare_tagged : ¬ sameName ((Label.bare n).text tag) ((Label.tagged m).text other) := by
  rw [sameName_iff, text_lower, text_lower]
  intro same
  have ended : decimal n ++ [] = decimal m ++ byte '_' :: other.map tolower := by
    rw [List.append_nil]
    exact (List.cons.inj same).2
  cases (decimal_append (by simp) not_digit_mark ended).2

theorem code_letter {rest : List Byte} : byte 'c' :: rest ≠ decimal n ++ other := by
  intro same
  cases digits : decimal n with
  | nil => exact decimal_ne_nil n digits
  | cons d ds =>
    rw [digits] at same
    have digit : isdigit d := isdigit_decimal (digits ▸ List.mem_cons_self ..)
    cases (List.cons.inj same).1
    exact absurd digit (by decide)

theorem bare_code : ¬ sameName ((Label.bare n).text tag) ((Label.code m).text other) := by
  rw [sameName_iff, text_lower, text_lower]
  intro same
  have digits := (List.cons.inj same).2.symm
  rw [← List.append_nil (decimal n)] at digits
  exact code_letter digits

theorem bare_address {function : List Byte} :
    ¬ sameName ((Label.bare n).text tag) ((Label.address function).text other) := by
  rw [sameName_iff, text_lower, text_lower]
  intro same
  have digits := (List.cons.inj same).2.symm
  rw [← List.append_nil (decimal n)] at digits
  exact code_letter digits

theorem tagged_address {function : List Byte} :
    ¬ sameName ((Label.tagged n).text tag) ((Label.address function).text other) := by
  rw [sameName_iff, text_lower, text_lower]
  exact fun same => code_letter (List.cons.inj same).2.symm

theorem address_same {function function' : List Byte}
    (same : sameName ((Label.address function).text tag) ((Label.address function').text other)) :
    sameName function function' := by
  rw [sameName_iff, text_lower, text_lower] at same
  simp only [List.cons.injEq, true_and] at same
  exact sameName_iff.mpr same

theorem code_address {function : List Byte}
    (same : sameName ((Label.code n).text tag) ((Label.address function).text other)) :
    sameName function ((Label.tagged n).text tag) := by
  rw [sameName_iff, text_lower, text_lower] at same
  simp only [List.cons.injEq, true_and] at same
  rw [sameName_iff, text_lower]
  exact same.symm

theorem tagged_code : ¬ sameName ((Label.tagged n).text tag) ((Label.code m).text other) := by
  rw [sameName_iff, text_lower, text_lower]
  exact fun same => code_letter (List.cons.inj same).2.symm

end spelling

/-- When this is so: no number is printed bare by both files; files whose tags agree have no number
in common behind which they print the tag; no function is in both; and what the user calls a
function or an object in one file is not the spelling of a label that the other makes up, or of a
static name there. -/
structure Apart (firstfile firstfile' : List Byte) (es es' : List Event) : Prop where
  bare : ∀ n, .bare n ∈ printed 1 es → .bare n ∉ printed 1 es'
  tagged : sameName (filename firstfile) (filename firstfile') →
    ∀ n, .tagged n ∈ printed 1 es → .tagged n ∉ printed 1 es'
  function : ∀ f, .address f ∈ printed 1 es → ∀ g, .address g ∈ printed 1 es' → ¬ sameName f g
  named : ∀ name, .named name ∈ printed 1 es ∨ .user name ∈ printed 1 es →
    ∀ y ∈ (compile firstfile' es').labels, ¬ sameName name y
  named' : ∀ name, .named name ∈ printed 1 es' ∨ .user name ∈ printed 1 es' →
    ∀ x ∈ (compile firstfile es).labels, ¬ sameName x name

theorem sameName_symm {x y : List Byte} (same : sameName x y) : sameName y x :=
  sameName_iff.mpr (sameName_iff.mp same).symm

theorem Apart.symm {firstfile firstfile' : List Byte} {es es' : List Event}
    (apart : Apart firstfile firstfile' es es') :
    Apart firstfile' firstfile es' es where
  bare n here there := apart.bare n there here
  tagged same n here there := apart.tagged (sameName_symm same) n there here
  function f here g there same := apart.function g there f here (sameName_symm same)
  named name inside y label same := apart.named' name inside y label (sameName_symm same)
  named' name inside x label same := apart.named name inside x label (sameName_symm same)

section files
variable {firstfile firstfile' : List Byte} {es es' : List Event}

theorem spelled {l : Label} (inside : l ∈ printed 1 es) (internal : l.internal) :
    l.text (filename firstfile) ∈ (compile firstfile es).labels :=
  mem_labels.mpr ⟨l, inside, internal, rfl⟩

theorem Apart.label (apart : Apart firstfile firstfile' es es') {l l' : Label}
    (inside : l ∈ printed 1 es)
    (inside' : l' ∈ printed 1 es') (internal : l.internal) :
    ¬ sameName (l.text (filename firstfile)) (l'.text (filename firstfile')) := by
  intro same
  have back := sameName_symm same
  cases l' with
  | named name => exact apart.named' name (.inl inside') _ (spelled inside internal) same
  | user name => exact apart.named' name (.inr inside') _ (spelled inside internal) same
  | bare m =>
    cases l with
    | bare n =>
      cases bare_same same
      exact apart.bare _ inside inside'
    | tagged n => exact bare_tagged back
    | code n => exact bare_code back
    | address f => exact bare_address back
    | named name => exact apart.named name (.inl inside) _ (spelled inside' rfl) same
    | user name => cases internal
  | tagged m =>
    cases l with
    | bare n => exact bare_tagged same
    | tagged n =>
      obtain ⟨rfl, tags⟩ := tagged_same same
      exact apart.tagged tags _ inside inside'
    | code n => exact tagged_code back
    | address f => exact tagged_address back
    | named name => exact apart.named name (.inl inside) _ (spelled inside' rfl) same
    | user name => cases internal
  | code m =>
    cases l with
    | bare n => exact bare_code same
    | tagged n => exact tagged_code same
    | code n =>
      obtain ⟨rfl, tags⟩ := code_same same
      exact apart.tagged tags n (labels_together.1 inside) (labels_together.1 inside')
    | address f =>
      exact apart.named f (labels_together (n := 0).2 f inside) _
        (spelled (labels_together.1 inside') rfl) (code_address back)
    | named name => exact apart.named name (.inl inside) _ (spelled inside' rfl) same
    | user name => cases internal
  | address g =>
    cases l with
    | bare n => exact bare_address same
    | tagged n => exact tagged_address same
    | code n =>
      exact apart.named' g (labels_together (n := 0).2 g inside') _
        (spelled (labels_together.1 inside) rfl)
        (sameName_symm (code_address same))
    | address f => exact apart.function f inside g inside' (address_same same)
    | named name => exact apart.named name (.inl inside) _ (spelled inside' rfl) same
    | user name => cases internal

end files

end LC3Tools.Lcc
