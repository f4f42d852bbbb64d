import LuaGraph.Sharing
import LuaGraph.Term

/-!
# Documents

A document is a persisted text before it is laid out: the number of slots, the statements that
fill the tables in them, in blocks, and the bindings. Conventions:

* Slots are numbered from one, in the order in which the tables are first met.
* A fill statement holds one entry of a table in a slot.
* A document without blocks writes its fill statements one after the other; with blocks, each
  block becomes a function of its own, which keeps the number of constants per function low.

`Document.text` is what `render` puts out: `preamble` is `write_preamble`, the lines of the blocks
are those of `write_fills`, and `Binding.text` is `write_binding`.

Result: grouping fill statements into blocks keeps them and their order (`flatten_blocks`).
-/

namespace LuaGraph

/-- A statement that stores an entry of a table in a slot. -/
structure Fill where
  slot : Nat
  key : Term
  value : Term

/-- A statement that stores a value under a global name or another key of the environment. -/
structure Binding where
  key : Term
  value : Term

/-- The statements of a persisted text. -/
structure Document where
  slots : Nat := 0
  /-- Fill statements are enclosed in function blocks. -/
  split : Bool := false
  /-- The fill statements in groups; a document that is not split has one group at most. -/
  blocks : List (List Fill) := []
  bindings : List Binding := []

/-! ## Fill statements -/

namespace Fill

/-- The number of literals in a fill statement. -/
def literals (f : Fill) : Nat := 1 + f.key.literals + f.value.literals

/-- The line of a fill statement. -/
def text (layout : Layout) (f : Fill) : String :=
  Term.slotText f.slot ++
    (match f.key.bareName? with
      | some name => "." ++ name
      | none => "[" ++ f.key.text layout 0 ++ "]") ++
    " = " ++ f.value.text layout 0 ++ "\n"

/-- Some table in the statement is too deep to be written. -/
def isTooDeep (f : Fill) : Bool := f.key.isTooDeep || f.value.isTooDeep

/-- Groups statements: a block that holds statements with at least the given number of literals
is closed before the next one. The open block is given with its statements in reverse. -/
def group (budget : Nat) : List Fill → Nat → List Fill → List (List Fill)
  | [], _, [] => []
  | block, _, [] => [block.reverse]
  | block, n, f :: fs =>
    if !block.isEmpty && decide (budget ≤ n) then block.reverse :: group budget [f] f.literals fs
    else group budget (f :: block) (n + f.literals) fs

/-- The blocks of some statements. -/
def blocks (budget : Nat) (fs : List Fill) : List (List Fill) := group budget [] 0 fs

theorem flatten_group (budget : Nat) (block : List Fill) (n : Nat) (fs : List Fill) :
    (group budget block n fs).flatten = block.reverse ++ fs := by
  induction fs generalizing block n with
  | nil => cases block <;> simp [group]
  | cons f fs ih => rw [group]; split <;> simp_all

/-- Grouping keeps the statements and their order. -/
theorem flatten_blocks (budget : Nat) (fs : List Fill) : (blocks budget fs).flatten = fs := by
  simp [blocks, flatten_group]

end Fill

/-! ## Bindings -/

namespace Binding

/-- The name that a binding is written with: any but those that stand for something else in the
text, the environment and, where there are slots, their table. -/
def globalName? (slots : Nat) (b : Binding) : Option String :=
  match b.key.bareName? with
  | some name =>
    if name = "_ENV" ∨ (0 < slots ∧ name = Term.slotTable) then none else some name
  | none => none

/-- The line of a binding. -/
def text (layout : Layout) (slots : Nat) (b : Binding) : String :=
  (match b.globalName? slots with
    | some name => name
    | none => "_ENV[" ++ b.key.text layout 0 ++ "]") ++
    " = " ++ b.value.text layout 0 ++ "\n"

/-- Some table in the binding is too deep to be written. -/
def isTooDeep (b : Binding) : Bool := b.key.isTooDeep || b.value.isTooDeep

end Binding

/-! ## Texts -/

namespace Document

/-- The statements that make an empty table for every slot. -/
def preamble (slots : Nat) : String :=
  "local " ++ Term.slotTable ++ " = \x7b\x7d\nfor i = 1, " ++
    String.ofList (Decimal.digitsOf slots) ++ " do " ++ Term.slotTable ++ "[i] = \x7b\x7d end\n"

/-- The first line of a function block. -/
def blockOpening : String := "(function()\n"

/-- The last line of a function block. -/
def blockClosing : String := "end)();\n"

/-- The lines of a group of fill statements. -/
def blockText (layout : Layout) (split : Bool) (block : List Fill) : String :=
  let body := String.join (block.map (·.text layout))
  if split then blockOpening ++ body ++ blockClosing else body

/-- **The text of a document.** -/
def text (layout : Layout) (d : Document) : String :=
  (if d.slots = 0 then "" else preamble d.slots) ++
    String.join (d.blocks.map (blockText layout d.split)) ++
    String.join (d.bindings.map (·.text layout d.slots))

/-- Some table is too deep to be written. -/
def isTooDeep (d : Document) : Bool :=
  d.blocks.any (·.any Fill.isTooDeep) || d.bindings.any Binding.isTooDeep

/-! ## Documents of bindings -/

/-- The fill statements of the tables in the slots. -/
def fills? (listing : TableId → Option Listing) (term : Value → Option Term)
    (slots : List TableId) : Option (List Fill) := do
  let fills ← (slots.zipIdx 1).mapM fun (t, i) => do
    let l ← listing t
    l.pairs.mapM fun e => return ⟨i, ← term e.1, ← term e.2⟩
  return fills.flatten

/-- The slot of a table. -/
def slotIn? (slots : List TableId) (t : TableId) : Option Nat := (slots.idxOf? t).map (· + 1)

/-- The tables that get a slot: the shared ones, or all of them beyond the tree form. -/
def slotted (form : Form) (c : Census) : List TableId :=
  match form with
  | .tree => c.shared
  | _ => c.all

/-- **The document of some bindings in a form.** -/
def ofBindings? (H : Heap) (o : Options) (form : Form) (c : Census) (es : List Entry) :
    Option Document := do
  let slots := slotted form c
  let term := Term.ofValue? H.listing? (slotIn? slots) o.limits.maxDepth
  let fills ← fills? H.listing? term slots
  let bindings ← es.mapM fun e => return ⟨← term e.1, ← term e.2⟩
  return {
    slots := slots.length
    split := form == .split
    blocks := if form = .split then Fill.blocks o.blockBudget fills else [fills]
    bindings }

end Document

end LuaGraph
