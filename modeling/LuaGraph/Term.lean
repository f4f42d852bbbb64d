import LuaGraph.Atom
import LuaGraph.Order

/-!
# Terms

A term is a value as it is written: a tree in which every table that is written out is a node of
its own and every table that has a slot is a reference to it. `Term.ofValue?` makes the term of a
value, and a `Layout` says how the fields of a table are set apart. What a term counts, how deep
it is and what it reads as do not depend on the layout.

This is the `Writer` as `Writer::new` makes it for persisted text: the text of a term is what
`write_value`, `write_field` and `write_table` put out, `literals` is what they count with
`push_literal`, and `isTooDeep` says whether they fail with `TooDeep`.

Out of scope: the text that is left where they fail. It is thrown away.
-/

namespace LuaGraph

mutual

/-- A value as it is written. -/
inductive Term
  | atom (a : Atom)
  /-- The table in a slot. -/
  | slot (i : Nat)
  /-- A table below the greatest depth, which is not written. -/
  | tooDeep
  | table (fields : List Field)

/-- A part of a table as it is written: a value in the sequence, or a key and its value. -/
inductive Field
  | item (v : Term)
  | pair (k v : Term)

end

/-! ## Layouts -/

/-- How the fields of a table are set apart. -/
inductive Layout
  /-- On one line. -/
  | compact
  /-- One field per line, with the given number of spaces per level. -/
  | pretty (indent : Nat)
deriving DecidableEq, Repr

namespace Layout

/-- A line break and the spaces of a level. -/
def newline (indent level : Nat) : String :=
  "\n" ++ String.ofList (List.replicate (level * indent) ' ')

/-- What stands between the opening brace and the first field. -/
def opening : Layout → Nat → String
  | compact, _ => ""
  | pretty indent, level => newline indent (level + 1)

/-- What stands between two fields. -/
def between : Layout → Nat → String
  | compact, _ => ", "
  | pretty indent, level => "," ++ newline indent (level + 1)

/-- What stands between the last field and the closing brace. -/
def closing : Layout → Nat → String
  | compact, _ => ""
  | pretty indent, level => "," ++ newline indent level

end Layout

/-! ## Text -/

namespace Term

/-- The name of the table of slots. -/
def slotTable : String := "ref"

/-- The text of a slot. -/
def slotText (i : Nat) : String :=
  slotTable ++ "[" ++ String.ofList (Decimal.digitsOf i) ++ "]"

/-- The name that a key can be written as. -/
def bareName? : Term → Option String
  | atom a => a.bareName?
  | _ => none

mutual

/-- The text of a term that stands at a level. -/
def text (layout : Layout) (level : Nat) : Term → String
  | atom a => a.text
  | slot i => slotText i
  | tooDeep => ""
  | table [] => "\x7b\x7d"
  | table (f :: fs) =>
    "\x7b" ++ layout.opening level ++
      (layout.between level).intercalate (fieldTexts layout (level + 1) (f :: fs)) ++
      layout.closing level ++ "\x7d"

/-- The texts of the fields of a table. -/
def fieldTexts (layout : Layout) (level : Nat) : List Field → List String
  | [] => []
  | f :: fs => fieldText layout level f :: fieldTexts layout level fs

/-- The text of a field. -/
def fieldText (layout : Layout) (level : Nat) : Field → String
  | .item v => text layout level v
  | .pair k v =>
    (match bareName? k with
      | some name => name
      | none => "[" ++ text layout level k ++ "]") ++
      " = " ++ text layout level v

end

/-! ## Measures -/

mutual

/-- The number of literals in a term: numbers, strings, bare names and slots. -/
def literals : Term → Nat
  | atom a => a.literals
  | slot _ => 1
  | tooDeep => 0
  | table fs => fieldsLiterals fs

/-- The number of literals in the fields of a table. -/
def fieldsLiterals : List Field → Nat
  | [] => 0
  | f :: fs => fieldLiterals f + fieldsLiterals fs

/-- The number of literals in a field. -/
def fieldLiterals : Field → Nat
  | .item v => literals v
  | .pair k v => literals k + literals v

end

mutual

/-- Some table is too deep to be written. -/
def isTooDeep : Term → Bool
  | tooDeep => true
  | table fs => anyTooDeep fs
  | _ => false

/-- Some table in the fields is too deep to be written. -/
def anyTooDeep : List Field → Bool
  | [] => false
  | f :: fs => fieldTooDeep f || anyTooDeep fs

/-- Some table in a field is too deep to be written. -/
def fieldTooDeep : Field → Bool
  | .item v => isTooDeep v
  | .pair k v => isTooDeep k || isTooDeep v

end

/-! ## Terms of values -/

/-- The fields of a listing, with its values turned into terms. -/
def fieldsOf? (term : Value → Option Term) (l : Listing) : Option (List Field) := do
  let items ← l.items.mapM fun v => return .item (← term v)
  let pairs ← l.fields.mapM fun e => return .pair (← term e.1) (← term e.2)
  return items ++ pairs

/-- **The term of a value**: tables with a slot are references, all others are written out, down
to a depth. There is none where a table that is written out has no listing. -/
def ofValue? (listing : TableId → Option Listing) (slot? : TableId → Option Nat) :
    Nat → Value → Option Term
  | depth, v =>
    match v.view with
    | .inl a => some (atom a)
    | .inr t =>
      match slot? t with
      | some i => some (slot i)
      | none =>
        match depth with
        | 0 => some tooDeep
        | depth + 1 => do
          let l ← listing t
          let fs ← fieldsOf? (ofValue? listing slot? depth) l
          return table fs

end Term

end LuaGraph
