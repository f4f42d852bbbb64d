import LuaGraph.Chunk.Parser

/-!
# Parsing as a machine

The rules of the grammar once more, as a machine with mutable state (`Parser`) goes through them.

* The tokens stay where they are, and a *cursor* (`pos`) moves over them. At the end of the text
  there is no token.
* The levels that are open (`depth`) are counted up by `enter` and down by `leave`. Nothing but the
  rules themselves makes these come in pairs.
* The open functions (`funcs`) are a stack, and so are the open scopes of each. A rule works on the
  innermost function.
* Loops and recursion have no bound of their own. A run is told how many calls and rounds may be
  open at a time, and has no result (`none`) where that is not enough; what it comes to is what it
  comes to for all numbers from some number on.

A run *breaks* where the machine would leave the ground that it stands on: if it takes a token at
the end of the text, closes a level though none is open, or is left with no function. That no run
does is nothing that the definitions see to.
-/

namespace LuaGraph.Chunk

/-- The state of the machine: how many tokens are behind it, how many levels are open, and the open
functions, the innermost first. -/
structure Descent where
  cursor : Nat := 0
  depth : Nat := 0
  functions : List Frame := [{}]

namespace Descent

/-- Why a run stops without a result. -/
inductive Stop
  | fault (e : Position × GrammarFault)
  | broken

/-- A run of the machine. It has no result where it has not ended. -/
abbrev Run := StateT Descent (ExceptT Stop Option)

/-- Stops the run. -/
def stop {α : Type} (e : Stop) : Run α := fun _ => ExceptT.mk (some (.error e))

/-- Does not end. -/
def never {α : Type} : Run α := fun _ => ExceptT.mk none

variable (x : Lexemes) (limits : Limits)

/-- The cursor is at a token or at the end of the text, and a function is open. -/
def Sound (m : Descent) : Prop := m.cursor ≤ x.lexemes.length ∧ 0 < m.functions.length

instance (m : Descent) : Decidable (m.Sound x) := inferInstanceAs (Decidable (_ ∧ _))

/-- Changes the state. Every change is made by this, and breaks the run if it is unsound. -/
def become (m : Descent) : Run Unit := if m.Sound x then set m else stop .broken

/-! ## Tokens -/

/-- The lexeme so many tokens behind the cursor, but none behind the end of the text. -/
def lexeme? (n : Nat) (m : Descent) : Option Lexeme :=
  x.lexemes[min (m.cursor + n) x.lexemes.length]?

/-- The token at the cursor. -/
def peek : Run (Option Token) := do return ((← get).lexeme? x 0).map Lexeme.token

/-- The token behind the one at the cursor. -/
def peekAhead : Run (Option Token) := do return ((← get).lexeme? x 1).map Lexeme.token

/-- Takes the token at the cursor. -/
def advance : Run Unit := do
  let m ← get
  if m.cursor < x.lexemes.length then become x { m with cursor := m.cursor + 1 }
  else stop .broken

/-- A fault at the cursor. -/
def fault {α : Type} (f : GrammarFault) : Run α := do
  stop (.fault ((((← get).lexeme? x 0).map Lexeme.position).getD x.stop, f))

/-- A fault at the cursor that shows the token there. -/
def faultNear {α : Type} (f : String → GrammarFault) : Run α := do
  fault x (f (((← peek x).map Token.shown).getD "<eof>"))

/-- The token at the cursor is the given one. -/
def sees (t : Token) : Run Bool := do return (← peek x) == some t

/-- Takes the given token if it is next. -/
def accept (t : Token) : Run Bool := do
  if ← sees x t then
    advance x
    return true
  else return false

/-- Takes the given token. -/
def expect (t : Token) : Run Unit := do
  if !(← accept x t) then faultNear x (.expected t.shown)

/-- Takes a name. -/
def expectName : Run String := do
  match ← peek x with
  | some (.name s) =>
    advance x
    return s
  | _ => faultNear x .noName

/-! ## Levels -/

/-- Opens a level. -/
def enter : Run Unit := do
  let m ← get
  become x { m with depth := m.depth + 1 }
  if limits.maxDepth < m.depth + 1 then fault x .tooManyLevels

/-- Closes a level. -/
def leave : Run Unit := do
  let m ← get
  match m.depth with
  | 0 => stop .broken
  | depth + 1 => become x { m with depth }

/-! ## Functions and scopes -/

/-- Changes the innermost function. -/
def onFunction (f : Frame → Frame) : Run Unit := do
  let m ← get
  match m.functions with
  | [] => stop .broken
  | frame :: outer => become x { m with functions := f frame :: outer }

/-- Opens a function. -/
def openFunction : Run Unit := do
  let m ← get
  become x { m with functions := {} :: m.functions }

/-- Closes the innermost function. -/
def closeFunction : Run Unit := do
  let m ← get
  become x { m with functions := m.functions.tail }

/-- Opens a scope. -/
def openScope : Run Unit := onFunction x fun f => { f with scopes := [] :: f.scopes }

/-- Closes the innermost scope. -/
def closeScope : Run Unit := onFunction x fun f => { f with scopes := f.scopes.drop 1 }

/-- Declares a local variable in the innermost scope. -/
def declare (name : String) : Run Unit :=
  onFunction x fun f => { f with scopes := match f.scopes with
    | scope :: scopes => (name :: scope) :: scopes
    | [] => [] }

/-- Some open scope of some open function declares the name. -/
def isLocal (name : String) : Run Bool := do
  return (← get).functions.any fun f => f.scopes.any fun scope => scope.contains name

/-- Counts a constant of the innermost function. -/
def addConstant (c : Constant) : Run Unit := do
  onFunction x fun f => { f with constants := f.constants.insert c }
  match (← get).functions with
  | [] => stop .broken
  | frame :: _ =>
    if limits.maxConstants < frame.constants.size then
      fault x (.tooManyConstants limits.maxConstants)

/-! ## Rules -/

/-- What a rule may call: expressions, and the loops of the other rules from some round on. -/
structure Calls where
  /-- An expression whose operators bind tighter than the given priority. -/
  subexpr : Nat → Run Expr
  /-- Such operators with their right operands, after an expression. -/
  binaries : Nat → Expr → Run Expr
  /-- Indices and calls after an expression. -/
  suffixes : Expr → Run Expr
  /-- Arguments after some, the last of which comes first. -/
  laterArguments : List Expr → Run (List Expr)
  /-- Fields after some, the last of which comes first. -/
  fields : List Part → Run Expr
  /-- Statements of a block after some, the last of which comes first. -/
  block : List Stat → Run (List Stat)

/-- A round of a loop, and the loop again unless it is the last one. -/
def loop {α β : Type} (again : α → Run β) (round : α → Run (α ⊕ β)) (a : α) : Run β := do
  match ← round a with
  | .inl a => again a
  | .inr b => return b

/-- A comma or semicolon, if there is one. -/
def separator : Run Bool := do
  if ← accept x (.mark .comma) then return true
  accept x (.mark .semicolon)

section

variable (c : Calls)

/-- One argument more, or the closing parenthesis. -/
def argument (args : List Expr) : Run (List Expr ⊕ List Expr) := do
  if ← accept x (.mark .comma) then
    let arg ← c.subexpr 0
    return .inl (arg :: args)
  expect x (.mark .closeParen)
  return .inr args.reverse

/-- The arguments of a call up to the closing parenthesis. -/
def arguments : Run (List Expr) := do
  if ← accept x (.mark .closeParen) then return []
  let first ← c.subexpr 0
  c.laterArguments [first]

/-- A name or an expression in parentheses. -/
def primaryExpr : Run Expr := do
  match ← peek x with
  | some (.name s) =>
    advance x
    let known ← isLocal s
    if s != "_ENV" && !known then addConstant x limits (.string s)
    return .name s
  | some (.mark .openParen) =>
    advance x
    let e ← c.subexpr 0
    expect x (.mark .closeParen)
    return e
  | _ => faultNear x .unexpected

/-- One index or call after an expression, if there is one. -/
def suffix (e : Expr) : Run (Expr ⊕ Expr) := do
  match ← peek x with
  | some (.mark .dot) =>
    advance x
    let field ← expectName x
    addConstant x limits (.string field)
    return .inl (.index e (.string field))
  | some (.mark .openBracket) =>
    advance x
    let key ← c.subexpr 0
    expect x (.mark .closeBracket)
    return .inl (.index e key)
  | some (.mark .openParen) =>
    advance x
    let args ← arguments x c
    return .inl (.call e args)
  | _ => return .inr e

/-- A name or parenthesised expression with indices and calls after it. -/
def suffixedExpr : Run Expr := do
  let e ← primaryExpr x limits c
  c.suffixes e

/-- A field of a table constructor. -/
def field : Run Part := do
  let named := (← peekAhead x) == some (.mark .equals)
  match ← peek x with
  | some (.name s) =>
    if named then
      advance x
      advance x
      addConstant x limits (.string s)
      let value ← c.subexpr 0
      return .pair (.string s) value
    else
      let value ← c.subexpr 0
      return .item value
  | some (.mark .openBracket) =>
    advance x
    let key ← c.subexpr 0
    expect x (.mark .closeBracket)
    expect x (.mark .equals)
    let value ← c.subexpr 0
    return .pair key value
  | _ =>
    let value ← c.subexpr 0
    return .item value

/-- One field more, or the closing brace. -/
def laterField (parts : List Part) : Run (List Part ⊕ Expr) := do
  if ← accept x (.mark .closeBrace) then return .inr (.table parts.reverse)
  let part ← field x limits c
  if ← separator x then return .inl (part :: parts)
  expect x (.mark .closeBrace)
  return .inr (.table (part :: parts).reverse)

/-- A table constructor. The level that it needs is held by the expression. -/
def tableConstructor : Run Expr := do
  expect x (.mark .openBrace)
  c.fields []

/-- A function after its keyword. It holds a level. -/
def functionBody : Run Expr := do
  expect x (.mark .openParen)
  if !(← accept x (.mark .closeParen)) then faultNear x .parameters
  openFunction x
  enter x limits
  let body ← c.block []
  leave x
  closeFunction x
  expect x (.keyword "end")
  return .function body

/-- An operand: a literal, a constructor, a function, or a name with what follows it. -/
def simpleExpr : Run Expr := do
  match ← peek x with
  | some (.integer i) =>
    advance x
    addConstant x limits (.integer i)
    return .number (.integer i)
  | some (.float f) =>
    advance x
    addConstant x limits (.float f)
    return .number (.float f)
  | some (.string s) =>
    advance x
    addConstant x limits (.string s)
    return .string s
  | some (.keyword word) =>
    if word = "nil" then
      advance x
      return .nil
    else if word = "true" then
      advance x
      return .boolean true
    else if word = "false" then
      advance x
      return .boolean false
    else if word = "function" then
      advance x
      functionBody x limits c
    else suffixedExpr x limits c
  | some (.mark .openBrace) => tableConstructor x c
  | _ => suffixedExpr x limits c

/-- One operator and its right operand after an expression, if the operator binds tighter than the
given priority. -/
def binary (floor : Nat) (left : Expr) : Run (Expr ⊕ Expr) := do
  match Parse.operator? (← peek x) with
  | some op =>
    if op.priority ≤ floor then return .inr left
    else
      advance x
      let right ← c.subexpr op.priority
      return .inl (.binary op left right)
  | none => return .inr left

/-- An expression whose operators bind tighter than the given priority. It holds a level. -/
def subexpr (floor : Nat) : Run Expr := do
  enter x limits
  let minus ← accept x (.mark .minus)
  let first ←
    if minus then do
      let operand ← c.subexpr signPriority
      pure (.negate operand)
    else simpleExpr x limits c
  let e ← c.binaries floor first
  leave x
  return e

/-- A block with a local variable or none, up to its end. It holds a level and a scope. -/
def nestedBlock (locals : List String) : Run (List Stat) := do
  enter x limits
  openScope x
  locals.forM (declare x)
  let body ← c.block []
  closeScope x
  leave x
  expect x (.keyword "end")
  return body

/-- A declaration after its keyword. The name is known behind its value only. -/
def declaration : Run Stat := do
  let name ← expectName x
  let given ← accept x (.mark .equals)
  let value ← if given then c.subexpr 0 else pure .nil
  declare x name
  return .declare name value

/-- A loop after its keyword. -/
def forLoop : Run Stat := do
  let counter ← expectName x
  expect x (.mark .equals)
  let start ← c.subexpr 0
  expect x (.mark .comma)
  let limit ← c.subexpr 0
  let given ← accept x (.mark .comma)
  let step ← if given then c.subexpr 0 else pure (.number (.integer 1))
  expect x (.keyword "do")
  let body ← nestedBlock x limits c [counter]
  return .loop counter start limit step body

/-- An assignment or a call. -/
def exprStatement : Run Stat := do
  let target ← suffixedExpr x limits c
  if ← accept x (.mark .equals) then
    if !target.isTarget then fault x .noTarget
    let value ← c.subexpr 0
    return .assign target value
  else if target.isCall then return .call target
  else faultNear x .noStatement

/-- A statement, or nothing for a semicolon. -/
def statement : Run (Option Stat) := do
  match ← peek x with
  | some (.mark .semicolon) =>
    advance x
    return none
  | some (.keyword word) =>
    if word = "local" then
      advance x
      let stat ← declaration x c
      return some stat
    else if word = "for" then
      advance x
      let stat ← forLoop x limits c
      return some stat
    else if word = "do" then
      advance x
      let body ← nestedBlock x limits c []
      return some (.block body)
    else faultNear x .unexpected
  | _ =>
    let stat ← exprStatement x limits c
    return some stat

/-- One statement more, if the block does not end. -/
def laterStatement (done : List Stat) : Run (List Stat ⊕ List Stat) := do
  let token ← peek x
  if token = none ∨ token = some (.keyword "end") then return .inr done.reverse
  let stat? ← statement x limits c
  return .inl (stat?.toList ++ done)

/-- A whole chunk. -/
def chunk : Run (List Stat) := do
  let body ← c.block []
  if (← peek x).isSome then faultNear x (.expected "<eof>")
  return body

end

/-- The calls that can be made if so many calls and rounds may be open at a time. -/
def calls : Nat → Calls
  | 0 => ⟨fun _ => never, fun _ _ => never, fun _ => never, fun _ => never, fun _ => never,
      fun _ => never⟩
  | n + 1 =>
    let c := calls n
    { subexpr := subexpr x limits c
      binaries := fun floor => loop (c.binaries floor) (binary x c floor)
      suffixes := loop c.suffixes (suffix x limits c)
      laterArguments := loop c.laterArguments (argument x c)
      fields := loop c.fields (laterField x limits c)
      block := loop c.block (laterStatement x limits c) }

end Descent

/-! ## Texts -/

/-- Cuts a text into pieces, from a place in it on for as long as there are characters: the cursor
moves by what a piece takes. So many pieces may be read. -/
def tokenizeFrom (text : List Char) : Nat → Nat → Position → Array Lexeme →
    Option (Except (Position × GrammarFault) Lexemes)
  | 0, _, _, _ => none
  | n + 1, cursor, p, done =>
    match text.drop cursor with
    | [] => some (.ok ⟨done.toList, p⟩)
    | c :: cs =>
      match scanPiece c cs with
      | .error (k, f) => some (.error (p.after ((c :: cs).take k), f))
      | .ok (token?, k) =>
        let done := match token? with
          | some token => done.push ⟨token, p⟩
          | none => done
        tokenizeFrom text n (cursor + k) (p.after ((c :: cs).take k)) done

/-- **Tokenizes and parses a text** by the machine, if so many pieces may be read and so many calls
and rounds may be open at a time. -/
def descend (limits : Limits) (text : String) (n : Nat) :
    Option (Except Descent.Stop (List Stat)) :=
  match tokenizeFrom text.toList n 0 {} #[] with
  | none => none
  | some (.error e) => some (.error (.fault e))
  | some (.ok x) =>
    match (Descent.chunk x (Descent.calls x limits n) {}).run with
    | none => none
    | some result => some (result.map Prod.fst)

end LuaGraph.Chunk
