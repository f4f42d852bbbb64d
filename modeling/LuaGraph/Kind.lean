/-!
# Kinds of values

`Kind.name` is `type_name`.
-/

namespace LuaGraph

/-- The kinds of values. -/
inductive Kind
  | nil
  | boolean
  | number
  | string
  | table
  | function
  | userdata
deriving DecidableEq, Repr

/-- The name of a kind. -/
def Kind.name : Kind → String
  | nil => "nil"
  | boolean => "boolean"
  | number => "number"
  | string => "string"
  | table => "table"
  | function => "function"
  | userdata => "userdata"

end LuaGraph
