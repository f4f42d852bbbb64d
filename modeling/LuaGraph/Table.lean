import LuaGraph.Value

/-!
# Tables

A table holds its entries in the order in which their keys came in, and the length of its
*sequence run*: the largest `n` such that the keys `1` to `n` are all present.

* Writing to a present key changes its value and keeps its place.
* Writing nil removes the entry and keeps the order of the others.
* The run is kept up to date with every write: a new key right after it extends it over all that
  follow, and removing a key of it cuts it there.

`Table` is `Slots` with `insert` and `erase` for `insert` and `remove`; `length` is `len`, `size` is
`entry_count`, `contains` is `contains_key` and `ofSequence` is `from_sequence`. The other functions
have the names they have there.

Out of scope: the index by hashes that finds an entry by its key, and `with_capacity`.
-/

namespace LuaGraph

/-- A key and its value. -/
abbrev Entry := Value × Value

/-- Entries in the order of insertion, and the length of the sequence run. -/
structure Table where
  entries : List Entry := []
  run : Nat := 0
deriving DecidableEq

namespace Table

/-! ## Reading -/

/-- The table without entries. -/
def empty : Table := {}

/-- The value of a key. -/
def get? (t : Table) (k : Value) : Option Value := t.entries.lookup k.canonical

/-- The value of a key, nil where there is none. -/
def get (t : Table) (k : Value) : Value := (t.get? k).getD .nil

/-- The key has a value. -/
def contains (t : Table) (k : Value) : Bool := (t.get? k).isSome

/-- The length of the sequence run. -/
def length (t : Table) : Nat := t.run

/-- The number of entries. -/
def size (t : Table) : Nat := t.entries.length

/-- The keys in the order of insertion. -/
def keys (t : Table) : List Value := t.entries.map Prod.fst

/-! ## Writing -/

/-- Gives a key a value: in its place if it is present, at the end if it is new. -/
def put (k v : Value) : List Entry → List Entry
  | [] => [(k, v)]
  | e :: es => if e.1 = k then (k, v) :: es else e :: put k v es

/-- The run from `n` on: it goes over the keys that follow, of which there are at most `steps`. -/
def runFrom (es : List Entry) : Nat → Nat → Nat
  | 0, n => n
  | steps + 1, n => if (es.lookup (.index (n + 1))).isSome then runFrom es steps (n + 1) else n

/-- Stores a value that is not nil under a key. A key right after the run extends it. -/
def insert (t : Table) (k v : Value) : Table :=
  let es := put k v t.entries
  let next := t.run + 1
  { entries := es, run := if k = .index next then runFrom es (es.length - next) next else t.run }

/-- Removes a key. -/
def erase (t : Table) (k : Value) : Table :=
  if t.contains k then
    { entries := t.entries.eraseP (·.1 = k)
      run := match k.place? with
        | some i => if i ≤ t.run then i - 1 else t.run
        | none => t.run }
  else t

/-- Stores a value under a key, or removes the key if the value is nil. -/
def write (t : Table) (k v : Value) : Table := if v = .nil then t.erase k else t.insert k v

/-- **Assignment to a key.** Nil and NaN are no keys. -/
def set (t : Table) (k v : Value) : Except KeyFault Table := k.toKey.map fun k => t.write k v

/-- Appends a value right after the sequence run; nil is not appended. -/
def push (t : Table) (v : Value) : Table :=
  if v = .nil then t else t.insert (.index (t.run + 1)) v

/-- The table of the given values at the places from one on. Nil leaves a hole. -/
def ofSequence (vs : List Value) : Table :=
  (vs.zipIdx 1).foldl (fun t (v, i) => if v = .nil then t else t.insert (.index i) v) empty

/-! ## Small facts -/

theorem set_eq_error_iff {t : Table} {k v : Value} {f : KeyFault} :
    t.set k v = .error f ↔ k.toKey = .error f := by
  unfold set
  cases k.toKey <;> simp [Except.map]

end Table

end LuaGraph
