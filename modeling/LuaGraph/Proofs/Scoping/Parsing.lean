import LuaGraph.Chunk.Parser
import LuaGraph.Proofs.Scoping.Tree

/-!
# Parsing with notes

The rules of the grammar, with one thing more: where a name is parsed that stands for a value, it is
noted whether it is known as a local variable there. Words are told apart one after the other.
-/

namespace LuaGraph.Chunk.Noted

open Parse (peek peekSecond advance fault faultNear accept expect expectName addConstant openScope
  closeScope openFunction closeFunction rounds separator operator?)

variable (maxConstants : Nat)

/-! ## Expressions -/

/-- How to parse one level deeper. -/
structure Inner where
  /-- An expression whose operators bind tighter than the given priority. -/
  operation : Nat → Parse Expr
  /-- The statements of a block. -/
  block : Parse (List Stat)

/-- An expression one level deeper. -/
def Inner.expr (inner : Inner) : Parse Expr := inner.operation 0

/-- A round of the rule for arguments. -/
def argumentsRound (inner : Inner) (args : List Expr) : Parse (List Expr ⊕ List Expr) := do
  if ← accept (.mark .comma) then return .inl ((← inner.expr) :: args)
  expect (.mark .closeParen)
  return .inr args.reverse

/-- A list of arguments up to the closing parenthesis. -/
def arguments (inner : Inner) : Parse (List Expr) := do
  if ← accept (.mark .closeParen) then return []
  let first ← inner.expr
  rounds (argumentsRound inner) [first]

/-- A name or an expression in parentheses. -/
def primary (inner : Inner) : Parse Expr := do
  match ← peek with
  | some (.name s) =>
    advance
    let known := (← get).isLocal s
    if s != "_ENV" && !known then addConstant maxConstants (.string s)
    return .name s known
  | some (.mark .openParen) =>
    advance
    let e ← inner.expr
    expect (.mark .closeParen)
    return e
  | _ => faultNear .unexpected

/-- One index or call after an expression, if there is one. -/
def suffix (inner : Inner) (e : Expr) : Parse (Expr ⊕ Expr) := do
  match ← peek with
  | some (.mark .dot) =>
    advance
    let field ← expectName
    addConstant maxConstants (.string field)
    return .inl (.index e (.string field))
  | some (.mark .openBracket) =>
    advance
    let key ← inner.expr
    expect (.mark .closeBracket)
    return .inl (.index e key)
  | some (.mark .openParen) =>
    advance
    return .inl (.call e (← arguments inner))
  | _ => return .inr e

/-- A name or parenthesised expression with indices and calls after it. -/
def suffixed (inner : Inner) : Parse Expr := do
  rounds (suffix maxConstants inner) (← primary maxConstants inner)

/-- A part of a table constructor. -/
def part (inner : Inner) : Parse Part := do
  let named := (← peekSecond) == some (.mark .equals)
  match ← peek with
  | some (.name s) =>
    if named then
      advance
      advance
      addConstant maxConstants (.string s)
      return .pair (.string s) (← inner.expr)
    else return .item (← inner.expr)
  | some (.mark .openBracket) =>
    advance
    let key ← inner.expr
    expect (.mark .closeBracket)
    expect (.mark .equals)
    return .pair key (← inner.expr)
  | _ => return .item (← inner.expr)

/-- A round of the rule for table constructors. -/
def constructorRound (inner : Inner) (parts : List Part) : Parse (List Part ⊕ Expr) := do
  if ← accept (.mark .closeBrace) then return .inr (.table parts.reverse)
  let p ← part maxConstants inner
  if ← separator then return .inl (p :: parts)
  expect (.mark .closeBrace)
  return .inr (.table (p :: parts).reverse)

/-- A table constructor after its opening brace. -/
def constructor (inner : Inner) : Parse Expr := rounds (constructorRound maxConstants inner) []

/-- A function body after its keyword. -/
def function (inner : Inner) : Parse Expr := do
  expect (.mark .openParen)
  if !(← accept (.mark .closeParen)) then faultNear .parameters
  openFunction
  let body ← inner.block
  closeFunction
  expect (.keyword "end")
  return .function body

/-- An operand. -/
def operand (inner : Inner) : Parse Expr := do
  match ← peek with
  | some (.integer i) =>
    advance
    addConstant maxConstants (.integer i)
    return .number (.integer i)
  | some (.float x) =>
    advance
    addConstant maxConstants (.float x)
    return .number (.float x)
  | some (.string s) =>
    advance
    addConstant maxConstants (.string s)
    return .string s
  | some (.keyword word) =>
    if word = "nil" then
      advance
      return .nil
    else if word = "true" then
      advance
      return .boolean true
    else if word = "false" then
      advance
      return .boolean false
    else if word = "function" then
      advance
      function inner
    else suffixed maxConstants inner
  | some (.mark .openBrace) =>
    advance
    constructor maxConstants inner
  | _ => suffixed maxConstants inner

/-- One operator and its right operand after an expression, if the operator binds tighter than
the given priority. -/
def operation (inner : Inner) (floor : Nat) (left : Expr) : Parse (Expr ⊕ Expr) := do
  match operator? (← peek) with
  | some op =>
    if op.priority ≤ floor then return .inr left
    else
      advance
      return .inl (.binary op left (← inner.operation op.priority))
  | none => return .inr left

/-- An expression whose operators bind tighter than the given priority. -/
def operations (inner : Inner) (floor : Nat) : Parse Expr := do
  let first ←
    if ← accept (.mark .minus) then Expr.negate <$> inner.operation signPriority
    else operand maxConstants inner
  rounds (operation inner floor) first

/-! ## Statements -/

/-- A block in a scope of its own, with a local variable or none, up to its end. -/
def scopedBlock (inner : Inner) (locals : List String) : Parse (List Stat) := do
  openScope
  locals.forM Parse.declare
  let body ← inner.block
  closeScope
  expect (.keyword "end")
  return body

/-- A declaration after its keyword. -/
def declaration (inner : Inner) : Parse Stat := do
  let name ← expectName
  let value ← if ← accept (.mark .equals) then inner.expr else pure .nil
  Parse.declare name
  return .declare name value

/-- A loop after its keyword. -/
def loop (inner : Inner) : Parse Stat := do
  let counter ← expectName
  expect (.mark .equals)
  let start ← inner.expr
  expect (.mark .comma)
  let limit ← inner.expr
  let step ← if ← accept (.mark .comma) then inner.expr else pure (.number (.integer 1))
  expect (.keyword "do")
  return .loop counter start limit step (← scopedBlock inner [counter])

/-- An assignment or a call. -/
def assignment (inner : Inner) : Parse Stat := do
  let target ← suffixed maxConstants inner
  if ← accept (.mark .equals) then
    if !target.erase.isTarget then fault .noTarget
    return .assign target (← inner.expr)
  else if target.erase.isCall then return .call target
  else faultNear .noStatement

/-- A statement, or nothing for a semicolon. -/
def statement (inner : Inner) : Parse (Option Stat) := do
  match ← peek with
  | some (.mark .semicolon) =>
    advance
    return none
  | some (.keyword word) =>
    if word = "local" then
      advance
      some <$> declaration inner
    else if word = "for" then
      advance
      some <$> loop inner
    else if word = "do" then
      advance
      return some (.block (← scopedBlock inner []))
    else faultNear .unexpected
  | _ => some <$> assignment maxConstants inner

/-- A round of the rule for statements. -/
def statementsRound (inner : Inner) (done : List Stat) : Parse (List Stat ⊕ List Stat) := do
  let token ← peek
  if token = none ∨ token = some (.keyword "end") then return .inr done.reverse
  return .inl ((← statement maxConstants inner).toList ++ done)

/-- Statements up to the end of a block or of the text. -/
def statements (inner : Inner) : Parse (List Stat) := rounds (statementsRound maxConstants inner) []

/-! ## Levels -/

/-- The rules with the given number of levels left. -/
def inner : Nat → Inner
  | 0 => ⟨fun _ => fault .tooManyLevels, fault .tooManyLevels⟩
  | levels + 1 => ⟨operations maxConstants (inner levels), statements maxConstants (inner levels)⟩

/-- A whole chunk. -/
def chunk (limits : Limits) : Parse (List Stat) := do
  let body ← statements limits.maxConstants (inner limits.maxConstants limits.maxDepth)
  if (← peek).isSome then faultNear (.expected "<eof>")
  return body

/-- **The tree of a text** that respects the ceilings, with notes. -/
def parse (limits : Limits) (text : String) : Except (Position × GrammarFault) (List Stat) := do
  let ⟨lexemes, stop⟩ ← lex text
  let (body, _) ← (chunk limits).run { lexemes, stop }
  return body

end LuaGraph.Chunk.Noted
