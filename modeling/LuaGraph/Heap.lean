import LuaGraph.Table

/-!
# Heaps

A heap holds numbered tables, so that a table can be shared, can be a key, and can contain itself.
It also counts the handles that were given out, so that a new one differs from all before it.

`TableId` is what `id` gives and `ptr_eq` compares, `Heap.set` is `Table::set`, and `addHandle` is
`Opaque::new`.

Out of scope: when tables are dropped. Their numbers are not given out again.
-/

namespace LuaGraph

/-- Numbered tables and the number of handles given out. -/
structure Heap where
  tables : Array Table := #[]
  handles : Nat := 0

namespace Heap

/-- The heap without tables. -/
def empty : Heap := {}

/-- The number of tables. -/
def size (H : Heap) : Nat := H.tables.size

/-- A table by its number; an unused number stands for the table without entries. -/
def table (H : Heap) (t : TableId) : Table := H.tables.getD t .empty

/-- Adds a table. -/
def add (H : Heap) (t : Table) : TableId × Heap := (H.size, { H with tables := H.tables.push t })

/-- Changes a table. -/
def update (H : Heap) (t : TableId) (f : Table → Table) : Heap :=
  { H with tables := H.tables.modify t f }

/-- Adds a handle with the given label. -/
def addHandle (H : Heap) (label : String) : Handle × Heap :=
  (⟨H.handles, label⟩, { H with handles := H.handles + 1 })

/-- Assigns to a key of a table. -/
def set (H : Heap) (t : TableId) (k v : Value) : Except KeyFault Heap :=
  k.toKey.map fun k => H.update t (·.write k v)

/-! ## Small facts -/

theorem table_add (H : Heap) (t : Table) (i : TableId) :
    (H.add t).2.table i = if i = H.size then t else H.table i := by
  simp only [add, table, size, Array.getD_eq_getD_getElem?, Array.getElem?_push]
  split <;> rfl

theorem size_update (H : Heap) (t : TableId) (f : Table → Table) :
    (H.update t f).size = H.size := by
  simp [update, size]

end Heap

end LuaGraph
