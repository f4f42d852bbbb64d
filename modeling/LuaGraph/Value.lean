import LuaGraph.Error
import LuaGraph.Number

/-!
# Values

A value is a scalar, a table of a heap by its number, or a handle: a function or userdata of which
only the identity and a label are known. Conventions:

* `same` is raw equality: scalars by value, a float that equals an integer being that integer, and
  tables and handles by identity.
* A *key* is a value in canonical form that is neither nil nor NaN. Two keys are raw-equal exactly
  if they are equal, which is why tables compare canonical forms only.

`same` is `==` of values, `toKey` is `normalize_key`, `display` what is displayed of a value other
than a table, and `toInteger`, `toFloat`, `toBoolean` and `toText` are its `try_from`.

Out of scope: the text of a table, which is its address.
-/

namespace LuaGraph

/-- The number of a table in its heap. -/
abbrev TableId := Nat

/-- Something that is known by its identity and carries a label. -/
structure Handle where
  identity : Nat
  label : String
deriving DecidableEq

/-- A value. -/
inductive Value
  | nil
  | boolean (b : Bool)
  | number (n : Number)
  | string (s : String)
  | table (t : TableId)
  | function (h : Handle)
  | userdata (h : Handle)
deriving DecidableEq

namespace Value

/-! ## Kinds -/

/-- The kind of a value. -/
def kind : Value → Kind
  | nil => .nil
  | boolean _ => .boolean
  | number _ => .number
  | string _ => .string
  | table _ => .table
  | function _ => .function
  | userdata _ => .userdata

/-- No value. -/
def isNil (v : Value) : Bool := v.kind == .nil

/-- A table. -/
def isTable (v : Value) : Bool := v.kind == .table

/-- A function or userdata. -/
def isHandle (v : Value) : Bool := v.kind == .function || v.kind == .userdata

/-- The table that the value is. -/
def table? : Value → Option TableId
  | table t => some t
  | _ => none

/-! ## Scalars -/

/-- The boolean that the value is. -/
def boolean? : Value → Option Bool
  | boolean b => some b
  | _ => none

/-- The string that the value is. -/
def string? : Value → Option String
  | string s => some s
  | _ => none

/-- The integer that the value equals. -/
def integer? : Value → Option Int64
  | number n => n.toInteger?
  | _ => none

/-- The value as a float, if it is a number. -/
def float? : Value → Option Float
  | number n => some n.toFloat
  | _ => none

/-- The refusal of a value of the wrong kind. -/
def mismatch (wanted : String) (v : Value) : Error :=
  .custom ("expected " ++ wanted ++ ", found " ++ v.kind.name)

/-- The integer that the value equals, or an error. -/
def toInteger (v : Value) : Except Error Int64 :=
  v.integer?.elim (.error (v.mismatch "integer")) .ok

/-- The value as a float, or an error. -/
def toFloat (v : Value) : Except Error Float :=
  v.float?.elim (.error (v.mismatch "number")) .ok

/-- The boolean that the value is, or an error. -/
def toBoolean (v : Value) : Except Error Bool :=
  v.boolean?.elim (.error (v.mismatch "boolean")) .ok

/-- The string that the value is, or an error. -/
def toText (v : Value) : Except Error String :=
  v.string?.elim (.error (v.mismatch "string")) .ok

/-- An integer as a value. -/
def ofInt64 (i : Int64) : Value := number (.integer i)

/-- The key of a place in a sequence. -/
def index (n : Nat) : Value := ofInt64 (Int64.ofNat n)

/-- The place in a sequence that a key stands for, counted from one. -/
def place? (v : Value) : Option Nat :=
  match v.integer? with
  | some i => if 1 ≤ i.toInt then some i.toInt.toNat else none
  | none => none

/-! ## Equality and keys -/

/-- Raw equality. NaN is the same as nothing. -/
def same : Value → Value → Bool
  | nil, nil => true
  | boolean a, boolean b => a == b
  | number a, number b => a.same b
  | string a, string b => a == b
  | table a, table b => a == b
  | function a, function b => a.identity == b.identity
  | userdata a, userdata b => a.identity == b.identity
  | _, _ => false

/-- The form in which a value is compared as a key. -/
def canonical : Value → Value
  | number n => number n.canonical
  | v => v

/-- The value as a key. -/
def toKey : Value → Except KeyFault Value
  | nil => .error .nil
  | number n => if n.isNaN then .error .nan else .ok (number n.canonical)
  | v => .ok v

/-! ## Text -/

/-- The text of a value for readers. A table has none of its own: it is shown by its number. -/
def display : Value → String
  | nil => "nil"
  | boolean b => if b then "true" else "false"
  | number n => n.display
  | string s => s
  | table t => "table: " ++ toString t
  | function h => "function: " ++ h.label
  | userdata h => "userdata: " ++ h.label

end Value

end LuaGraph
