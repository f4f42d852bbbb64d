import LuaGraph.Chunk.Constant
import LuaGraph.Chunk.Expr
import LuaGraph.Proofs.Chunk.Wording

/-!
# The trees of terms

What the text of a term is parsed to is defined by recursion on the term: its tree, the constants
that are counted on the way, and the number of levels that are opened. A number is a literal with a
sign or an operation on two literals in parentheses, and everything about its text follows from
which of the two it is (`Number.spelling`).
-/

namespace LuaGraph

open Chunk Binary64

/-! ## Literals -/

/-- The token of a constant. -/
def Chunk.Constant.token : Constant → Token
  | integer i => .integer i
  | float x => .float x
  | string s => .string s

/-- The expression that a constant is. -/
def Chunk.Constant.expr : Constant → Expr
  | integer i => .number (.integer i)
  | float x => .number (.float x)
  | string s => .string s

/-- A natural number as a constant. -/
def naturalConstant (n : Nat) : Constant := .integer (Int64.ofNat n)

/-- An expression after an optional minus sign. -/
def signedExpr (neg : Bool) (e : Expr) : Expr := if neg then .negate e else e

/-! ## Numbers -/

/-- How a number is written: with its sign before a literal, or as an operation on two literals in
parentheses. -/
inductive Spelling
  | literal (neg : Bool) (c : Constant)
  | operation (neg : Bool) (left : Constant) (op : Operator) (right : Constant)

namespace Spelling

/-- The mark of an operator. -/
def markOf : Operator → Mark
  | .add => .plus
  | .sub => .minus
  | .mul => .star
  | .div => .slash

/-- The tokens of a spelling. -/
def tokens : Spelling → List Token
  | literal neg c => signed neg [c.token]
  | operation neg left op right =>
    parenthesised (signed neg [left.token, .mark (markOf op), right.token])

/-- The tree of a spelling. -/
def expr : Spelling → Expr
  | literal neg c => signedExpr neg c.expr
  | operation neg left op right => .binary op (signedExpr neg left.expr) right.expr

/-- The constants of a spelling. -/
def constants : Spelling → List Constant
  | literal _ c => [c]
  | operation _ left _ right => [left, right]

/-- The levels of a spelling. -/
def height : Spelling → Nat
  | literal neg _ => if neg then 2 else 1
  | operation _ _ _ _ => 3

end Spelling

/-- The spelling of a number. -/
def Number.spelling : Number → Spelling
  | integer i =>
    if i.toInt = -2 ^ 63 then
      .operation true (naturalConstant 9223372036854775807) .sub (naturalConstant 1)
    else .literal (decide (i.toInt < 0)) (naturalConstant i.toInt.natAbs)
  | float x =>
    if Binary64.isNaN x then .operation false (naturalConstant 0) .div (naturalConstant 0)
    else if isInfinite x then
      .operation (negative x) (naturalConstant 1) .div (naturalConstant 0)
    else .literal (negative x) (.float (ofMagnitude false (magnitude x)))

theorem tokens_spelling (n : Number) : n.spelling.tokens = numberTokens n := by
  cases n with
  | integer i =>
    unfold Number.spelling numberTokens
    dsimp only
    split <;> rfl
  | float x =>
    unfold Number.spelling numberTokens
    dsimp only
    split
    · rfl
    · split <;> rfl

/-! ## Terms -/

namespace Atom

/-- The tree of an atom. -/
def expr : Atom → Expr
  | nil => .nil
  | boolean b => .boolean b
  | number n => n.spelling.expr
  | string s => .string s
  | remark _ => .nil

/-- The constants of an atom. -/
def constants : Atom → List Constant
  | number n => n.spelling.constants
  | string s => [.string s]
  | _ => []

/-- The levels of an atom. -/
def height : Atom → Nat
  | number n => n.spelling.height
  | _ => 1

end Atom

namespace Term

mutual

/-- The tree of a term. -/
def expr : Term → Expr
  | atom a => a.expr
  | slot i => .index (.name slotTable) (naturalConstant i).expr
  | tooDeep => .nil
  | table fs => .table (fieldParts fs)

/-- The parts of a table constructor. -/
def fieldParts : List Field → List Part
  | [] => []
  | f :: fs => fieldPart f :: fieldParts fs

/-- The part of a table constructor that a field is. -/
def fieldPart : Field → Part
  | .item v => .item (expr v)
  | .pair k v => .pair (expr k) (expr v)

end

mutual

/-- The constants of a term, in order. -/
def constants : Term → List Constant
  | atom a => a.constants
  | slot i => [naturalConstant i]
  | tooDeep => []
  | table fs => fieldsConstants fs

/-- The constants of the fields of a table. -/
def fieldsConstants : List Field → List Constant
  | [] => []
  | f :: fs => fieldConstants f ++ fieldsConstants fs

/-- The constants of a field. -/
def fieldConstants : Field → List Constant
  | .item v => constants v
  | .pair k v => constants k ++ constants v

end

mutual

/-- The number of levels that a term opens. -/
def height : Term → Nat
  | atom a => a.height
  | slot _ => 2
  | tooDeep => 1
  | table fs => fieldsHeight fs + 1

/-- The number of levels that the fields of a table open. -/
def fieldsHeight : List Field → Nat
  | [] => 0
  | f :: fs => max (fieldHeight f) (fieldsHeight fs)

/-- The number of levels that a field opens. -/
def fieldHeight : Field → Nat
  | .item v => height v
  | .pair k v => max (height k) (height v)

end

end Term

end LuaGraph
