import LC3Tools.Cpp.Hideset

/-! Macro expansion in a row of tokens, as `macro.c` does it. The part of a row in front of its `tp`
and the part from there on are two lists. -/
namespace LC3Tools.Cpp

inductive TokType where
  | END | UNCLASS | NAME | NUMBER | STRING | CCON | NL | WS | DSHARP
  | EQ | NEQ | LEQ | GEQ | LSH | RSH | LAND | LOR | PPLUS | MMINUS
  | ARROW | SBRA | SKET | LP | RP | DOT | AND | STAR | PLUS | MINUS
  | TILDE | NOT | SLASH | PCT | LT | GT | CIRC | OR | QUEST
  | COLON | ASGN | COMMA | SHARP | SEMIC | CBRA | CKET
  | ASPLUS | ASMINUS | ASSTAR | ASSLASH | ASPCT | ASCIRC | ASLSH
  | ASRSH | ASOR | ASAND | ELLIPS | DSHARP1 | NAME1 | DEFINED | UMINUS
  deriving DecidableEq

structure Token where
  type : TokType
  /-- The flag `XPWS`: the white space in front has been put there. -/
  xpws : Bool
  hideset : Nat
  wslen : Nat
  text : List Char

inductive KwType where
  | KDEFINED | KLINENO | KFILE | KDATE | KTIME | other
  deriving DecidableEq

structure Nlist where
  name : List Char
  vp : List Token
  ap : Option (List Token)
  val : KwType
  isDefined : Bool
  isMac : Bool
  /-- A value comes from `gettokens`, which hides nothing. -/
  plain : ∀ t ∈ vp, t.hideset = 0

structure Env where
  table : List Nlist
  /-- The first token of a text. -/
  lex : List Char → Token
  /-- What `builtin` writes for the names of `kwtab`. -/
  builtinText : KwType → List Char

/-- A run that does not come to its end. -/
inductive Stop where
  /-- Not enough fuel. -/
  | fuel
  /-- The loop comes to the same name again and again. -/
  | endless
  /-- `FATAL`: too many macro arguments -/
  | tooMany
  | aborted
  deriving DecidableEq

structure Globals where
  hidesets : Hidesets
  nerrs : Bool

def Globals.error (st : Globals) : Globals := { st with nerrs := true }

def NARG : Nat := 32

def STRLEN : Nat := 512

def wstab : TokType → Bool
  | .NL | .SBRA | .SKET | .LP | .RP | .COMMA | .SEMIC | .CBRA | .CKET => true
  | _ => false

def makespace (prev : Option Token) (t : Token) : Token :=
  let apart := wstab t.type || prev.any fun p => wstab p.type
  if t.wslen ≠ 0 then
    if t.xpws && apart then { t with wslen := 0 } else t
  else if apart then t
  else { t with wslen := 1, xpws := true }

/-- `makespace` at the first token of what comes behind `prev`, if it is asked for -/
def spaced (prev : Option Token) : List Token → List Token
  | [] => []
  | t :: ts => makespace prev t :: ts

def spacedIf (space : Bool) (prev : Option Token) (t : Token) : Token :=
  if space then makespace prev t else t

def normtokenrow (row : List Token) : List Token :=
  match row.map fun t => if t.text ≠ [] ∧ t.wslen ≠ 0 then { t with wslen := 1 } else t with
  | [] => []
  | t :: ts => { t with wslen := 0 } :: ts

def lookup (env : Env) (t : Token) : Option Nat := env.table.findIdx? fun n => n.name = t.text

def lookuparg (params : List Token) (t : Token) : Option Nat :=
  if t.type = .NAME then params.findIdx? fun p => p.text = t.text else none

/-- A character of a token, in a string. -/
def quoted (instring : Bool) (c : Char) : List Char :=
  if instring && (c = '"' || c = '\\') then ['\\', c] else [c]

def stringifyLoop : List Token → List Char → List Char × Bool
  | [], out => (out, false)
  | t :: ts, out =>
    if out.length + 2 * t.text.length ≥ STRLEN - 10 then (out, true)
    else
      let out := if t.wslen ≠ 0 ∧ t.xpws = false then out ++ [' '] else out
      stringifyLoop ts (out ++ t.text.flatMap (quoted (t.type = .STRING || t.type = .CCON)))

def stringify (vp : List Token) (st : Globals) : Token × Globals :=
  let r := stringifyLoop vp ['"']
  (⟨.STRING, false, 0, 0, r.1 ++ ['"']⟩, if r.2 then st.error else st)

/-- `doconcat`: what is in front of the token, and whether space is to be made there -/
def doconcat (env : Env) : List Token → Bool → List Token → Globals → List Token × Globals
  | done, _, [], st => (done, st)
  | done, space, t :: ts, st =>
    let kept := spacedIf space done.getLast? t
    if t.type = .DSHARP1 then doconcat env (done ++ [{ kept with type := .DSHARP }]) false ts st
    else if t.type = .DSHARP then
      match done.getLast?, ts with
      | some ltp, ntp :: ts =>
        let pasted := makespace none { env.lex (ltp.text ++ ntp.text) with hideset := 0 }
        doconcat env (done.dropLast ++ [makespace done.dropLast.getLast? pasted]) true ts st
      | _, ts => doconcat env (done ++ [kept]) false ts st.error
    else doconcat env (done ++ [kept]) false ts st

/-- `substargs`: what stands for an argument is expanded by `run`, unless it is next to a `##` -/
def substargs (params : List Token) (atr : List (List Token))
    (run : List Token → Globals → Except Stop (List Token × Globals)) :
    List Token → Bool → List Token → Globals → Except Stop (List Token × Globals)
  | done, _, [], st => .ok (done, st)
  | done, space, t :: ts, st =>
    let kept := spacedIf space done.getLast? t
    if t.type = .SHARP then
      match ts with
      | u :: us =>
        match lookuparg params u with
        | some argno =>
          let r := stringify (atr.getD argno []) st
          substargs params atr run (done ++ spaced done.getLast? [r.1]) true us r.2
        | none => substargs params atr run (done ++ [kept]) false (u :: us) st.error
      | [] => .ok (done ++ [kept], st.error)
    else
      match lookuparg params t with
      | some argno =>
        if (ts.head?.any fun u => u.type = .DSHARP) ||
          (done.getLast?.any fun u => u.type = .DSHARP) then
          substargs params atr run (done ++ spaced done.getLast? (atr.getD argno [])) true ts st
        else do
          let r ← run (atr.getD argno []) st
          substargs params atr run (done ++ spaced done.getLast? r.1) true ts r.2
      | none => substargs params atr run (done ++ [kept]) false ts st

/-- Where the parenthesis of a call is looked for. -/
inductive Sought where
  /-- The tokens in front of the parenthesis, and from it on. -/
  | paren (before after : List Token) (src : List (List Token))
  | other (before after : List Token) (src : List (List Token))
  /-- The input ends behind these tokens. -/
  | beyond (row : List Token) (src : Option (List (List Token)))

/-- `gettokens` brings the next line, or `END`. -/
def seek (before after : List Token) (src : List (List Token)) : Sought :=
  match after.dropWhile (·.type = .NL) with
  | t :: ts =>
    let passed := before ++ after.takeWhile (·.type = .NL)
    if t.type = .LP then .paren passed (t :: ts) src else .other passed (t :: ts) src
  | [] =>
    match src with
    | [] => .beyond (before ++ after) none
    | line :: src =>
      if line.getLast?.any fun t => t.type = .END then .beyond (before ++ after ++ line.dropLast)
        (some src)
      else seek (before ++ after) line src

/-- Where the parenthesis is looked for that closes a call. -/
inductive Collected where
  | closed (out rest : List Token)
  | ended (out rest : List Token)
  | more (needspace : Bool) (parens : Nat) (out : List Token)

def collectRow : Bool → Nat → List Token → List Token → Collected
  | needspace, parens, out, [] => .more needspace parens out
  | needspace, parens, out, t :: ts =>
    let t := spacedIf needspace out.getLast? t
    match t.type with
    | .END => .ended out (t :: ts).dropLast
    | .NL => collectRow true parens out ts
    | .LP => collectRow false (parens + 1) (out ++ [t]) ts
    | .RP => if parens = 1 then .closed (out ++ [t]) ts
      else collectRow false (parens - 1) (out ++ [t]) ts
    | _ => collectRow false parens (out ++ [t]) ts

/-- What a call goes through, whether it is closed, and what comes behind. -/
def collect (needspace : Bool) (parens : Nat) (out rest : List Token) (src : List (List Token)) :
    Bool × List Token × List Token × List (List Token) :=
  match collectRow needspace parens out rest with
  | .closed out rest => (true, out, rest, src)
  | .ended out rest => (false, out, rest, src)
  | .more needspace parens out =>
    match src with
    | [] => (false, out, [], [])
    | line :: src => collect needspace parens out line src

def unsharp (t : Token) : Token := if t.type = .DSHARP then { t with type := .DSHARP1 } else t

/-- The arguments of a call, behind its parenthesis. -/
def splitArgs : Nat → Bool → List Token → List (List Token) → List Token →
    Except Stop (List (List Token))
  | _, _, _, args, [] => .ok args
  | parens, open_, arg, args, t :: ts =>
    if t.type = .LP then splitArgs (parens + 1) true (arg ++ [t]) args ts
    else
      let last := t.type = .RP ∧ parens = 0
      if (t.type = .COMMA ∧ parens = 0) ∨ (last ∧ open_ = false) then
        if args.length ≥ NARG - 1 then .error .tooMany
        else if last then .ok (args ++ [normtokenrow arg])
        else splitArgs parens false [] (args ++ [normtokenrow arg]) ts
      else if last then .ok args
      else splitArgs (if t.type = .RP then parens - 1 else parens) false
        (arg ++ [unsharp t]) args ts

/-- The hideset of a name that a macro has brought. -/
def distribute (hs : Nat) : List Token → Globals → List Token × Globals
  | [], st => ([], st)
  | t :: ts, st =>
    if t.type = .NAME then
      if t.hideset = 0 then
        let r := distribute hs ts st
        ({ t with hideset := stored hs } :: r.1, r.2)
      else
        let u := unionhideset st.hidesets t.hideset hs
        let r := distribute hs ts { st with hidesets := u.1 }
        ({ t with hideset := stored u.2 } :: r.1, r.2)
    else
      let r := distribute hs ts st
      (t :: r.1, r.2)

/-- A row with what comes behind it. -/
structure Place where
  done : List Token
  rest : List Token
  src : List (List Token)

/-- What `expand` puts in the place of a name and of the call that it may stand in front of. -/
def replaceRow (env : Env) (np : Nat) (name : Token) (body done after : List Token)
    (src : List (List Token)) (st : Globals) :
    Place × Globals :=
  let row := doconcat env [] false body st
  let hs := newhideset row.2.hidesets name.hideset np
  let named := distribute hs.2 row.1 { row.2 with hidesets := hs.1 }
  let ntr := spaced done.getLast? named.1
  (⟨done, ntr ++ spaced (done ++ ntr).getLast? after, src⟩, named.2)

/-- The arguments of a call that is closed. -/
def callArgs (closed : Bool) (row : List Token) : Except Stop (List (List Token)) :=
  if closed then splitArgs 0 true [] [] row else .ok []

def gather (name : Token) (done : List Token) (np : Nat) (n : Nlist) (params : List Token)
    (env : Env)
    (run : List Token → Globals → Except Stop (List Token × Globals)) (before after : List Token)
    (src : List (List Token)) (st : Globals) :
    Except Stop (Place × Globals) := do
  let call := collect false 1 ((name :: before) ++ after.take 1) (after.drop 1) src
  let args ← callArgs call.1 (call.2.1.drop (before.length + 2))
  let st := if call.1 then st else st.error
  if args.length ≠ params.length then
    let hs := newhideset st.hidesets name.hideset np
    let passed := if call.1 then call.2.1.take (before.length + 2) ++
      (call.2.1.drop (before.length + 2)).map unsharp else call.2.1
    .ok (⟨done ++ ({ name with hideset := stored hs.2 } :: passed.drop 1), call.2.2.1, call.2.2.2⟩,
      { st with hidesets := hs.1 }.error)
  else
    let body ← substargs params args run [] false n.vp st
    .ok (replaceRow env np name body.1 done call.2.2.1 call.2.2.2 body.2)

def expand (env : Env) (run : List Token → Globals → Except Stop (List Token × Globals)) (np : Nat)
    (n : Nlist) (name : Token)
    (done more : List Token) (src : List (List Token)) (st : Globals) :
      Except Stop (Place × Globals) :=
  match n.ap with
  | none => .ok (replaceRow env np name n.vp done more src st)
  | some params =>
    match seek [] more src with
    | .beyond _ none => .error .endless
    | .beyond row (some src) => .ok (⟨done, name :: row, src⟩, st)
    | .other before after src => .ok (⟨done ++ name :: before, after, src⟩, st)
    | .paren before after src => gather name done np n params env run before after src st

/-- `defined` in a controlling expression -/
def definedName : List Token → Option (List Token)
  | t :: u :: v :: ts =>
    if t.type = .NAME then some ({ t with type := .NAME1 } :: u :: v :: ts)
    else if t.type = .LP ∧ u.type = .NAME ∧
      v.type = .RP then some (t :: { u with type := .NAME1 } :: v :: ts)
    else none
  | t :: ts => if t.type = .NAME then some ({ t with type := .NAME1 } :: ts) else none
  | [] => none

def builtin (env : Env) (val : KwType) (t : Token) (st : Globals) : Token × Globals :=
  let t := { t with wslen := if t.wslen ≠ 0 then 1 else 0 }
  match val with
  | .KLINENO => ({ t with type := .NUMBER, text := env.builtinText val }, st)
  | .KFILE | .KDATE | .KTIME => ({ t with type := .STRING, text := env.builtinText val }, st)
  | _ => ({ t with type := .STRING }, st.error)

def checkhideset (hidesets : Hidesets) (hs np : Nat) : Except Stop Bool :=
  if hs ≥ hidesets.length then .error .aborted else .ok ((hidesets.set hs).contains np)

/-- The macro that a token is the name of and that it does not hide. -/
def candidate (env : Env) (st : Globals) (t : Token) : Except Stop (Option (Nat × Nlist)) :=
  if t.type ≠ .NAME then .ok none
  else
    match lookup env t with
    | none => .ok none
    | some np =>
      match env.table[np]? with
      | none => .ok none
      | some n =>
        if n.isDefined || n.isMac then do
          let hidden ← if t.hideset ≠ 0 then checkhideset st.hidesets t.hideset np else .ok false
          .ok (if hidden then none else some (np, n))
        else .ok none

/-- One turn of the loop of `expandrow`. -/
def turn (env : Env) (run : List Token → Globals → Except Stop (List Token × Globals))
    (done : List Token) (t : Token) (more : List Token)
    (src : List (List Token)) (st : Globals) : Except Stop (Place × Globals) := do
  match ← candidate env st t with
  | none => .ok (⟨done ++ [t], more, src⟩, st)
  | some (np, n) =>
    if n.val = .KDEFINED then
      match definedName more with
      | some more => .ok (⟨done ++ [{ t with type := .DEFINED }], more, src⟩, st)
      | none => .ok (⟨done ++ [{ t with type := .DEFINED }], more, src⟩, st.error)
    else if n.isMac then
      let r := builtin env n.val t st
      .ok (⟨done ++ [r.1], more, src⟩, r.2)
    else expand env run np n t done more src st

/-- `expandrow`: what more input can be gathered comes line by line -/
def expandrow (env : Env) : Nat → Place → Globals → Except Stop (Place × Globals)
  | _, ⟨done, [], src⟩, st => .ok (⟨done, [], src⟩, st)
  | 0, _, _ => .error .fuel
  | fuel + 1, ⟨done, t :: more, src⟩, st => do
    let r ← turn env (fun row st => (expandrow env fuel ⟨[], row, []⟩ st).map fun r =>
      (r.1.done, r.2)) done t more src st
    expandrow env fuel r.1 r.2

end LC3Tools.Cpp
