import LuaGraph.Sorting.Stable
import LuaGraph.Table

/-!
# The order of entries

A table is written as a `Listing`: the values of its sequence run, then the other entries sorted
by key (`Ordered`). Keys are ordered like this:

* numbers, then strings, then booleans, then everything else;
* numbers by value, strings by their characters, true before false;
* everything else by the name of its kind, then by a text: a table by its *signature*, which is
  given from outside, a handle by its label.

Entries with equal keys in this order (only table keys can be) are sorted by their values. Among
these NaN is level with every number, so such entries have no transitive order: the place of NaN is
whatever `Sorting.stable` makes of it, and the sort may panic. Entries whose key is a handle are
left out, since no text can recreate such a key.

`OrderKey.ofValue` is `SortKey::of`, `OrderKey.order` its `cmp`, `Listing.sortEntries` is
`sort_entries`, `Listing.ofTable` is `ordered_entries` and `Listing.pairs` is `into_pairs`. To take
a signature is an action, `sign`, which can panic: signatures of keys are taken before they are
sorted, those of values where two keys are level.
-/

namespace LuaGraph

/-- What a value is sorted by. -/
inductive OrderKey
  | number (n : Number)
  | string (s : String)
  | boolean (b : Bool)
  | other (kind : Kind) (text : String)
deriving DecidableEq

namespace OrderKey

/-- What a value is sorted by, given the signatures of tables. -/
def ofValue (signature : TableId → String) : Value → OrderKey
  | .number n => number n
  | .string s => string s
  | .boolean b => boolean b
  | .table t => other .table (signature t)
  | v => other v.kind v.display

/-- The place of a group of keys. -/
def rank : OrderKey → Nat
  | number _ => 0
  | string _ => 1
  | boolean _ => 2
  | other _ _ => 3

/-- The order of two keys. -/
def order : OrderKey → OrderKey → Ordering
  | number a, number b => a.order b
  | string a, string b => compare a b
  | boolean a, boolean b => compare b.toNat a.toNat
  | other k a, other l b =>
    match compare k.name l.name with
    | .eq => compare a b
    | o => o
  | a, b => compare a.rank b.rank

end OrderKey

/-! ## Listings -/

/-- A table as it is written: the values of the run, then the entries with keys. -/
structure Listing where
  items : List Value := []
  fields : List Entry := []
deriving DecidableEq

namespace Listing

/-- The key stands in the sequence run of the table. -/
def inRun (t : Table) (k : Value) : Bool := k.place?.any fun i => decide (i ≤ t.run)

section

variable {m : Type → Type} [Monad m] [MonadExceptOf Unit m] (sign : TableId → m String)

/-- What a value is sorted by, with the signature of a table taken for it. -/
def signed : Value → m OrderKey
  | .table t => return .other .table (← sign t)
  | v => return .ofValue (fun _ => "") v

/-- The first entry comes before the second. Values are looked at where the keys are level. -/
def before (a b : OrderKey × Entry) : m Bool :=
  match a.1.order b.1 with
  | .lt => return true
  | .gt => return false
  | .eq => do
    let x ← signed sign a.2.2
    let y ← signed sign b.2.2
    return x.order y == .lt

/-- The entries whose key is no handle, sorted. -/
def sortEntries (es : List Entry) : m (List Entry) := do
  let keyed ← (es.filter fun e => !e.1.isHandle).mapM fun e => return (← signed sign e.1, e)
  let sorted ← (Sorting.stable keyed).run (before sign)
  return sorted.map Prod.snd

/-- **The listing of a table.** -/
def ofTable (t : Table) : m Listing := do
  let fields ← sortEntries sign (t.entries.filter fun e => !inRun t e.1)
  return { items := (List.range t.run).map fun i => t.get (.index (i + 1)), fields }

end

/-- Nothing is written. -/
def isEmpty (l : Listing) : Bool := l.items.isEmpty && l.fields.isEmpty

/-- All entries with their keys, in order. -/
def pairs (l : Listing) : List Entry :=
  (l.items.zipIdx 1).map (fun (v, i) => (.index i, v)) ++ l.fields

end Listing

end LuaGraph
