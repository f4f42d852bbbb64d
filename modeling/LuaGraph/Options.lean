/-!
# Options

What a caller can choose: the layout of the text, the ceilings it has to respect, and the form to
start with.

`Form` is `Strategy` with `next?` for `next` and `name` for `as_str`; `Options.compact` is
`compact`, and `withBlockBudget` is `with_block_literal_budget`.

Out of scope: the other builders, each of which sets a field.
-/

namespace LuaGraph

/-- The forms of a persisted text, in the order in which they are tried. -/
inductive Form
  /-- Every binding is one nested literal; only tables met more than once get a slot. -/
  | tree
  /-- Every table gets a slot and is filled by one statement per entry. -/
  | reference
  /-- As `reference`, with the fill statements spread over function blocks. -/
  | split
deriving DecidableEq, Repr

namespace Form

/-- The place of a form on the ladder. -/
def rank : Form → Nat
  | tree => 0
  | reference => 1
  | split => 2

/-- The next form to try. -/
def next? : Form → Option Form
  | tree => some reference
  | reference => some split
  | split => none

/-- The name of a form. -/
def name : Form → String
  | tree => "tree"
  | reference => "reference"
  | split => "split"

theorem rank_lt_of_next? {f g : Form} (h : f.next? = some g) : f.rank < g.rank := by
  cases f <;> simp_all [next?] <;> subst h <;> decide

end Form

/-- The ceilings of the program that loads a text. -/
structure Limits where
  /-- The number of distinct constants in one function. -/
  maxConstants : Nat := 262143
  /-- The number of syntactic levels. -/
  maxDepth : Nat := 190
deriving DecidableEq, Repr

/-- The choices of a caller. -/
structure Options where
  /-- Spaces per level. -/
  indent : Nat := 2
  /-- One entry of a table per line. -/
  pretty : Bool := true
  /-- The number of bytes that an inline text may have. -/
  inlineLimit : Nat := 65536
  /-- The number of tables beyond which the tree form is not tried. -/
  tableThreshold : Nat := 10000
  /-- The number of literals from which on a block of the split form is closed. -/
  blockBudget : Nat := 10000
  /-- The form to start with. -/
  form : Form := .tree
  limits : Limits := {}
deriving DecidableEq, Repr

namespace Options

/-- The default options on one line per binding. -/
def compact : Options := { pretty := false }

/-- Sets the budget of a block, which is at least one literal. -/
def withBlockBudget (o : Options) (n : Nat) : Options := { o with blockBudget := max n 1 }

end Options

end LuaGraph
