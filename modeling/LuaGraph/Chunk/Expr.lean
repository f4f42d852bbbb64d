import LuaGraph.Number

/-!
# The tree of a chunk

Expressions and statements of the part of the language in which tables are persisted. A
declaration without a value declares nil, and a loop without a step has the step one.

`Part` is `Field`, `Operator` is `BinOp` with its `priority`, and `signPriority` is
`UNARY_PRIORITY`.
-/

namespace LuaGraph.Chunk

/-- An operator between two operands. -/
inductive Operator
  | add
  | sub
  | mul
  | div
deriving DecidableEq, Repr

/-- How tightly an operator binds its operands. -/
def Operator.priority : Operator → Nat
  | .add => 10
  | .sub => 10
  | .mul => 11
  | .div => 11

/-- How tightly a minus sign binds its operand. -/
def signPriority : Nat := 12

mutual

/-- An expression. -/
inductive Expr
  | nil
  | boolean (b : Bool)
  | number (n : Number)
  | string (s : String)
  | name (s : String)
  | index (object key : Expr)
  | call (callee : Expr) (args : List Expr)
  | function (body : List Stat)
  | table (parts : List Part)
  | negate (operand : Expr)
  | binary (op : Operator) (left right : Expr)

/-- A part of a table constructor: a value at the next place, or a value under a key. -/
inductive Part
  | item (value : Expr)
  | pair (key value : Expr)

/-- A statement. -/
inductive Stat
  | declare (name : String) (value : Expr)
  | assign (target value : Expr)
  | loop (counter : String) (start limit step : Expr) (body : List Stat)
  | block (body : List Stat)
  | call (callee : Expr)

end

namespace Expr

/-- An expression that can be assigned to. -/
def isTarget : Expr → Bool
  | name _ => true
  | index _ _ => true
  | _ => false

/-- A call. -/
def isCall : Expr → Bool
  | call _ _ => true
  | _ => false

end Expr

end LuaGraph.Chunk
