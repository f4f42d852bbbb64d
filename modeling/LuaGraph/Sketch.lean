import LuaGraph.Atom
import LuaGraph.Error
import LuaGraph.Heap
import LuaGraph.Order
import Std.Data.TreeSet

/-!
# Sketches

A sketch is a text on one line in the making. It is written from left to right, together with a
note of the tables met in it, and given up where it gets too long or too deep. What is done about a
table that was met before is a matter of manner: it is marked `@`, or the sketch is given up.

The length of the text is looked at after every value. Nothing is taken back when a sketch is given
up: the text so far is left.

This is the `Writer` as `Writer::inline` makes it: `Sketch.value` is its `write_value`, `field` its
`write_field`, `table` and `body` its `write_table`, and `check` its `check_size`. To list the
entries of a table is an action, `listing` (`ordered_entries`), which can panic and then leaves no
sketch at all.

Out of scope: the counting of literals, which nothing reads here, and references, of which an inline
text has none.
-/

namespace LuaGraph

/-- A text in the making, and the tables met in it. -/
structure Sketch where
  text : String := ""
  met : Std.TreeSet TableId := ∅

namespace Sketch

/-- How a sketch is written. -/
structure Manner where
  /-- A table that was met before is marked. -/
  marks : Bool := false
  /-- The number of bytes beyond which the sketch is given up. -/
  limit : Nat
  /-- The number of nested tables beyond which the sketch is given up. -/
  maxDepth : Nat

/-- Writing a sketch; it stops for good where the sketch is given up. -/
abbrev Draw (m : Type → Type) := ExceptT Error (StateT Sketch m)

section

variable {m : Type → Type} [Monad m]

/-- Adds to the text. -/
def emit (s : String) : Draw m Unit := modify fun k => { k with text := k.text ++ s }

/-- Gives up a text that has got too long. -/
def check (n : Manner) : Draw m Unit := do
  if n.limit < (← get).text.utf8ByteSize then throw (.tooLarge n.limit)

/-- Runs the parts with a comma between them. -/
def separated : List (Draw m Unit) → Draw m Unit
  | [] => pure ()
  | part :: parts => do
    part
    parts.forM fun p => do emit ", "; p

/-- Writes a key and its value. -/
def field (write : Value → Draw m Unit) (e : Entry) : Draw m Unit := do
  match e.1.view with
  | .inl a =>
    match a.bareName? with
    | some name => emit name
    | none => do emit "["; write e.1; emit "]"
  | .inr _ => do emit "["; write e.1; emit "]"
  emit " = "
  write e.2

/-- Writes the body of a table. -/
def body (n : Manner) (write : Value → Draw m Unit) (l : Listing) : Draw m Unit := do
  if l.isEmpty then emit "\x7b\x7d"
  else do
    emit "\x7b"
    separated (l.items.map write ++ l.fields.map (field write))
    emit "\x7d"
  check n

/-- Writes a table, unless it was met before. -/
def table (n : Manner) (write : Value → Draw m Unit) (listing : TableId → m Listing)
    (t : TableId) : Draw m Unit := do
  if (← get).met.contains t then
    if n.marks then do emit "@"; check n
    else throw .notATree
  else do
    modify fun k => { k with met := k.met.insert t }
    body n write (← listing t)

/-- Writes a value, with tables down to a depth. -/
def value (n : Manner) (listing : TableId → m Listing) : Nat → Value → Draw m Unit
  | depth, v =>
    match v.view with
    | .inl a => do emit a.text; check n
    | .inr t =>
      match depth with
      | 0 => throw (.tooDeep n.maxDepth)
      | depth + 1 => table n (value n listing depth) listing t

/-- The sketch of a value, and the error where it was given up. -/
def draw (n : Manner) (listing : TableId → m Listing) (v : Value) :
    m (Except Error Unit × Sketch) :=
  (value n listing n.maxDepth v).run.run {}

end

end Sketch

end LuaGraph
