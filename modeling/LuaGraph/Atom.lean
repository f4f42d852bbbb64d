import LuaGraph.Text.LongBracket
import LuaGraph.Text.Name
import LuaGraph.Text.Quoted
import LuaGraph.Value

/-!
# Atoms

Every value but a table is written by itself, without looking at a heap. A handle cannot be
written: nil stands for it, followed by a comment that shows it.

`Atom.text` is what `write_value` puts out for what is no table, `literals` says where it calls
`push_literal`, and `bareName?` are the keys that `write_field` puts out without brackets.
-/

namespace LuaGraph

/-- What is written without looking into a table. -/
inductive Atom
  | nil
  | boolean (b : Bool)
  | number (n : Number)
  | string (s : String)
  /-- A value without a text of its own, as it is shown to readers. -/
  | remark (shown : String)
deriving DecidableEq

namespace Atom

/-- The text of an atom. -/
def text : Atom → String
  | nil => "nil"
  | boolean b => if b then "true" else "false"
  | number n => n.numeral
  | string s => Text.Quoted.literal s
  | remark shown => "nil " ++ Text.LongBracket.comment shown

/-- The number of literals that an atom counts for. -/
def literals : Atom → Nat
  | number _ => 1
  | string _ => 1
  | _ => 0

/-- The name that a key can be written as. -/
def bareName? : Atom → Option String
  | string s => if Text.Name.isName s then some s else none
  | _ => none

end Atom

/-- The atom or the table that a value is. -/
def Value.view : Value → Atom ⊕ TableId
  | nil => .inl .nil
  | boolean b => .inl (.boolean b)
  | number n => .inl (.number n)
  | string s => .inl (.string s)
  | table t => .inr t
  | function h => .inl (.remark (display (function h)))
  | userdata h => .inl (.remark (display (userdata h)))

end LuaGraph
