import LuaGraph.Chunk.Constant
import LuaGraph.Chunk.Expr
import LuaGraph.Chunk.Lexer

/-!
# From tokens to the tree of a chunk

The parser goes through the tokens once, from left to right, and keeps what the ceilings are about:

* the *constants* of each function that is open, numbers, strings and the names that are no local
  variables, each counted once;
* the *levels* that may still be opened. Every expression, block and function body opens one.

The grammar is given in layers. The rules of a layer are told how to parse an expression or a
block one level deeper (`Inner`); `inner` ties the knot by recursion on the number of levels left.
Repetitions are rounds of `rounds`, which needs no more of them than there are tokens left.

The functions are those of `Parser`: `statements` is `block` and `scopedBlock` is `nested_block`,
`assignment` is `expr_statement`, `operations` is `subexpr`, `operand` is `simple_expr`, `primary`
and `suffixed` are `primary_expr` and `suffixed_expr`, `constructor` is `table_constructor` and
`function` is `function_body`. A `Frame` is a `FuncState`, and levels are opened by `enter` and
closed by `leave`; `Proofs/Descent` has these as they move. `check` is `Checker::check`.
-/

namespace LuaGraph.Chunk

/-! ## State -/

/-- What is known of a function that is being parsed: its constants, and the names declared in
each of its open scopes, the innermost first. -/
structure Frame where
  constants : Constants := {}
  scopes : List (List String) := [[]]

/-- The tokens left and the open functions, the innermost first. -/
structure State where
  lexemes : List Lexeme
  stop : Position
  frame : Frame := {}
  outer : List Frame := []

/-- Some open scope of some open function declares the name. -/
def State.isLocal (s : State) (name : String) : Bool :=
  (s.frame :: s.outer).any fun f => f.scopes.any fun scope => scope.contains name

/-- A parser: it consumes tokens, or finds a fault at a position. -/
abbrev Parse := StateT State (Except (Position × GrammarFault))

namespace Parse

/-! ## Tokens -/

/-- The next token. -/
def peek : Parse (Option Token) := fun s => .ok (s.lexemes.head?.map Lexeme.token, s)

/-- The token after the next one. -/
def peekSecond : Parse (Option Token) := fun s =>
  .ok ((s.lexemes.drop 1).head?.map Lexeme.token, s)

/-- Consumes a token. -/
def advance : Parse Unit := fun s => .ok ((), { s with lexemes := s.lexemes.drop 1 })

/-- A fault at the next token. -/
def fault {α : Type} (f : GrammarFault) : Parse α := fun s =>
  .error ((s.lexemes.head?.map Lexeme.position).getD s.stop, f)

/-- A fault at the next token, which is shown. -/
def faultNear {α : Type} (f : String → GrammarFault) : Parse α := do
  fault (f (((← peek).map Token.shown).getD "<eof>"))

/-- The next token is the given one. -/
def sees (t : Token) : Parse Bool := do return (← peek) == some t

/-- Consumes the given token if it is next. -/
def accept (t : Token) : Parse Bool := do
  if ← sees t then
    advance
    return true
  else return false

/-- Consumes the given token. -/
def expect (t : Token) : Parse Unit := do
  if !(← accept t) then faultNear (.expected t.shown)

/-- Consumes a name. -/
def expectName : Parse String := do
  match ← peek with
  | some (.name s) =>
    advance
    return s
  | _ => faultNear .noName

/-! ## Constants and scopes -/

variable (maxConstants : Nat)

/-- Counts a constant of the innermost function. -/
def addConstant (c : Constant) : Parse Unit := do
  modify fun s => { s with frame.constants := s.frame.constants.insert c }
  if maxConstants < (← get).frame.constants.size then
    fault (.tooManyConstants maxConstants)

/-- Declares a local variable in the innermost scope. -/
def declare (name : String) : Parse Unit :=
  modify fun s => { s with frame.scopes := match s.frame.scopes with
    | scope :: scopes => (name :: scope) :: scopes
    | [] => [] }

/-- Opens a scope. -/
def openScope : Parse Unit :=
  modify fun s => { s with frame.scopes := [] :: s.frame.scopes }

/-- Closes the innermost scope. -/
def closeScope : Parse Unit :=
  modify fun s => { s with frame.scopes := s.frame.scopes.drop 1 }

/-- Opens a function. -/
def openFunction : Parse Unit :=
  modify fun s => { s with frame := {}, outer := s.frame :: s.outer }

/-- Closes the innermost function. -/
def closeFunction : Parse Unit :=
  modify fun s => { s with frame := s.outer.headD {}, outer := s.outer.drop 1 }

/-! ## Repetition -/

/-- Runs rounds from `a` on until one has a result. Each round that does not end the repetition
has to consume a token, so there is one for each token of `left` and a last one. -/
def roundsWithin {α β : Type} (round : α → Parse (α ⊕ β)) : List Lexeme → α → Parse β
  | left, a => do
    match ← round a with
    | .inr b => return b
    | .inl a =>
      match left with
      | [] => faultNear .unexpected
      | _ :: left => roundsWithin round left a

/-- Runs rounds from `a` on until one has a result. -/
def rounds {α β : Type} (round : α → Parse (α ⊕ β)) (a : α) : Parse β := do
  roundsWithin round (← get).lexemes a

/-! ## Expressions -/

/-- How to parse one level deeper. -/
structure Inner where
  /-- An expression whose operators bind tighter than the given priority. -/
  operation : Nat → Parse Expr
  /-- The statements of a block. -/
  block : Parse (List Stat)

/-- An expression one level deeper. -/
def Inner.expr (inner : Inner) : Parse Expr := inner.operation 0

/-- A list of arguments up to the closing parenthesis. -/
def arguments (inner : Inner) : Parse (List Expr) := do
  if ← accept (.mark .closeParen) then return []
  let first ← inner.expr
  rounds (fun args => do
    if ← accept (.mark .comma) then return .inl ((← inner.expr) :: args)
    expect (.mark .closeParen)
    return .inr args.reverse) [first]

/-- A name or an expression in parentheses. -/
def primary (inner : Inner) : Parse Expr := do
  match ← peek with
  | some (.name s) =>
    advance
    if s != "_ENV" && !(← get).isLocal s then addConstant maxConstants (.string s)
    return .name s
  | some (.mark .openParen) =>
    advance
    let e ← inner.expr
    expect (.mark .closeParen)
    return e
  | _ => faultNear .unexpected

/-- One index or call after an expression, if there is one. -/
def suffix (inner : Inner) (e : Expr) : Parse (Expr ⊕ Expr) := do
  match ← peek with
  | some (.mark .dot) =>
    advance
    let field ← expectName
    addConstant maxConstants (.string field)
    return .inl (.index e (.string field))
  | some (.mark .openBracket) =>
    advance
    let key ← inner.expr
    expect (.mark .closeBracket)
    return .inl (.index e key)
  | some (.mark .openParen) =>
    advance
    return .inl (.call e (← arguments inner))
  | _ => return .inr e

/-- A name or parenthesised expression with indices and calls after it. -/
def suffixed (inner : Inner) : Parse Expr := do
  rounds (suffix maxConstants inner) (← primary maxConstants inner)

/-- A part of a table constructor. -/
def part (inner : Inner) : Parse Part := do
  let named := (← peekSecond) == some (.mark .equals)
  match ← peek with
  | some (.name s) =>
    if named then
      advance
      advance
      addConstant maxConstants (.string s)
      return .pair (.string s) (← inner.expr)
    else return .item (← inner.expr)
  | some (.mark .openBracket) =>
    advance
    let key ← inner.expr
    expect (.mark .closeBracket)
    expect (.mark .equals)
    return .pair key (← inner.expr)
  | _ => return .item (← inner.expr)

/-- A comma or semicolon, if there is one. -/
def separator : Parse Bool := do
  if ← accept (.mark .comma) then return true
  accept (.mark .semicolon)

/-- A table constructor after its opening brace. -/
def constructor (inner : Inner) : Parse Expr :=
  rounds (fun parts => do
    if ← accept (.mark .closeBrace) then return .inr (.table parts.reverse)
    let p ← part maxConstants inner
    if ← separator then return .inl (p :: parts)
    expect (.mark .closeBrace)
    return .inr (.table (p :: parts).reverse)) []

/-- A function body after its keyword. The function has constants and scopes of its own. -/
def function (inner : Inner) : Parse Expr := do
  expect (.mark .openParen)
  if !(← accept (.mark .closeParen)) then faultNear .parameters
  openFunction
  let body ← inner.block
  closeFunction
  expect (.keyword "end")
  return .function body

/-- An operand: a literal, a constructor, a function, or a name with what follows it. -/
def operand (inner : Inner) : Parse Expr := do
  match ← peek with
  | some (.integer i) =>
    advance
    addConstant maxConstants (.integer i)
    return .number (.integer i)
  | some (.float x) =>
    advance
    addConstant maxConstants (.float x)
    return .number (.float x)
  | some (.string s) =>
    advance
    addConstant maxConstants (.string s)
    return .string s
  | some (.keyword word) =>
    if word = "nil" then
      advance
      return .nil
    else if word = "true" then
      advance
      return .boolean true
    else if word = "false" then
      advance
      return .boolean false
    else if word = "function" then
      advance
      function inner
    else suffixed maxConstants inner
  | some (.mark .openBrace) =>
    advance
    constructor maxConstants inner
  | _ => suffixed maxConstants inner

/-- The operator that a token is. -/
def operator? : Option Token → Option Operator
  | some (.mark .plus) => some .add
  | some (.mark .minus) => some .sub
  | some (.mark .star) => some .mul
  | some (.mark .slash) => some .div
  | _ => none

/-- One operator and its right operand after an expression, if the operator binds tighter than
the given priority. -/
def operation (inner : Inner) (floor : Nat) (left : Expr) : Parse (Expr ⊕ Expr) := do
  match operator? (← peek) with
  | some op =>
    if op.priority ≤ floor then return .inr left
    else
      advance
      return .inl (.binary op left (← inner.operation op.priority))
  | none => return .inr left

/-- An expression whose operators bind tighter than the given priority. -/
def operations (inner : Inner) (floor : Nat) : Parse Expr := do
  let first ←
    if ← accept (.mark .minus) then Expr.negate <$> inner.operation signPriority
    else operand maxConstants inner
  rounds (operation inner floor) first

/-! ## Statements -/

/-- A block in a scope of its own, with a local variable or none, up to its end. -/
def scopedBlock (inner : Inner) (locals : List String) : Parse (List Stat) := do
  openScope
  locals.forM declare
  let body ← inner.block
  closeScope
  expect (.keyword "end")
  return body

/-- A declaration after its keyword. -/
def declaration (inner : Inner) : Parse Stat := do
  let name ← expectName
  let value ← if ← accept (.mark .equals) then inner.expr else pure .nil
  declare name
  return .declare name value

/-- A loop after its keyword. -/
def loop (inner : Inner) : Parse Stat := do
  let counter ← expectName
  expect (.mark .equals)
  let start ← inner.expr
  expect (.mark .comma)
  let limit ← inner.expr
  let step ← if ← accept (.mark .comma) then inner.expr else pure (.number (.integer 1))
  expect (.keyword "do")
  return .loop counter start limit step (← scopedBlock inner [counter])

/-- An assignment or a call. -/
def assignment (inner : Inner) : Parse Stat := do
  let target ← suffixed maxConstants inner
  if ← accept (.mark .equals) then
    if !target.isTarget then fault .noTarget
    return .assign target (← inner.expr)
  else if target.isCall then return .call target
  else faultNear .noStatement

/-- A statement, or nothing for a semicolon. -/
def statement (inner : Inner) : Parse (Option Stat) := do
  match ← peek with
  | some (.mark .semicolon) =>
    advance
    return none
  | some (.keyword "local") =>
    advance
    some <$> declaration inner
  | some (.keyword "for") =>
    advance
    some <$> loop inner
  | some (.keyword "do") =>
    advance
    return some (.block (← scopedBlock inner []))
  | some (.keyword _) => faultNear .unexpected
  | _ => some <$> assignment maxConstants inner

/-- Statements up to the end of a block or of the text. -/
def statements (inner : Inner) : Parse (List Stat) :=
  rounds (fun done => do
    match ← peek with
    | none => return .inr done.reverse
    | some (.keyword "end") => return .inr done.reverse
    | some _ => return .inl (((← statement maxConstants inner).toList) ++ done)) []

/-! ## Levels -/

mutual

/-- An expression with the given number of levels left. -/
def operationAt : Nat → Nat → Parse Expr
  | 0, _, s => fault .tooManyLevels s
  | levels + 1, floor, s =>
    operations maxConstants ⟨fun floor s => operationAt levels floor s, fun s => blockAt levels s⟩
      floor s

/-- A block with the given number of levels left. -/
def blockAt : Nat → Parse (List Stat)
  | 0, s => fault .tooManyLevels s
  | levels + 1, s =>
    statements maxConstants ⟨fun floor s => operationAt levels floor s, fun s => blockAt levels s⟩ s

end

/-- The rules with the given number of levels left. -/
def inner (levels : Nat) : Inner :=
  ⟨fun floor s => operationAt maxConstants levels floor s, fun s => blockAt maxConstants levels s⟩

/-- A whole chunk. -/
def chunk (limits : Limits) : Parse (List Stat) := do
  let body ← statements limits.maxConstants (inner limits.maxConstants limits.maxDepth)
  if (← peek).isSome then faultNear (.expected "<eof>")
  return body

end Parse

/-! ## Texts -/

/-- **The tree of a text** that respects the ceilings. -/
def parse (limits : Limits) (text : String) : Except (Position × GrammarFault) (List Stat) := do
  let ⟨lexemes, stop⟩ ← lex text
  let (body, _) ← (Parse.chunk limits).run { lexemes, stop }
  return body

/-- A fault at a position as an error. -/
def located (e : Position × GrammarFault) : Error := .grammar e.1.line e.1.column e.2

/-- **Checks that a text can be loaded**, without running it. -/
def check (limits : Limits) (text : String) : Except Error Unit :=
  match parse limits text with
  | .ok _ => .ok ()
  | .error e => .error (located e)

end LuaGraph.Chunk
