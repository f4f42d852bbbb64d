import LuaGraph.Signature

/-!
# Sharing

A census walks the tables that can be reached from given values, through keys and values and in
the order in which they are written, and counts how often each is met. The entries of a table are
followed when it is met for the first time only, so cycles end. A table that is met more than once
is *shared*. Where the sort of the entries of a table panics, so does the census.

Along one path of the walk no table is followed twice, so the number of tables bounds its depth.

`Census` is `RefCounts`, with `visitValue?` for `visit`, `repeats` for `shared()`, `size` for
`len()`, and `shared` and `all` for the slots of `index()`, without and with `force_all_shared`.
`visit` keeps a stack of its own where `visit?` calls itself; both meet the same tables in the same
order.
-/

namespace LuaGraph

/-- The tables found so far, in the order in which they were met first, how often each table of the
heap was met, and whether any was met again. -/
structure Census where
  found : Array TableId := #[]
  counts : Array Nat := #[]
  repeats : Bool := false

namespace Census

/-- The census before any value is visited. -/
def start (H : Heap) : Census := { counts := .replicate H.size 0 }

/-- How often a table was met. -/
def count (c : Census) (t : TableId) : Nat := c.counts.getD t 0

/-- The number of tables found. -/
def size (c : Census) : Nat := c.found.size

/-- Counts a table that was found before. -/
def again (c : Census) (t : TableId) : Census :=
  { c with counts := c.counts.modify t (· + 1), repeats := true }

/-- Counts a table for the first time. -/
def first (c : Census) (t : TableId) : Census :=
  { c with found := c.found.push t, counts := c.counts.modify t (· + 1) }

/-- The tables among the keys and values of a listing, in order. -/
def children (l : Listing) : List TableId :=
  l.items.filterMap Value.table? ++
    l.fields.flatMap fun e => [e.1, e.2].filterMap Value.table?

/-- Visits a table and, if it is new, what it leads to, down to a depth. -/
def visit? (H : Heap) : Nat → Census → TableId → Option Census
  | 0, c, t => some (c.again t)
  | depth + 1, c, t =>
    if c.count t = 0 then do
      let l ← H.listing? t
      (children l).foldlM (visit? H depth) (c.first t)
    else some (c.again t)

/-- Visits a value. -/
def visitValue? (H : Heap) (c : Census) (v : Value) : Option Census :=
  match v.table? with
  | some t => visit? H H.size c t
  | none => some c

/-- **The census of what can be reached from some values.** -/
def ofValues? (H : Heap) (vs : List Value) : Option Census := vs.foldlM (visitValue? H) (start H)

/-- The tables that are met more than once, in the order of their first meeting. -/
def shared (c : Census) : List TableId := c.found.toList.filter fun t => 1 < c.count t

/-- Every table found, in the order of its first meeting. -/
def all (c : Census) : List TableId := c.found.toList

end Census

end LuaGraph
