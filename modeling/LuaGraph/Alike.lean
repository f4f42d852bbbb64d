import LuaGraph.Heap

/-!
# Structural comparison

Two values are alike if they are the same, if both are NaN, or if they are tables with equally
many entries such that every entry of the first has a counterpart in the second: under the same
key, or, for a table key, under some table that is alike and has a value that is alike.

The comparison walks both graphs at once. A pair of tables that is being compared is *assumed*
alike where it is met again, so cycles close; a pair that turns out different is no longer
assumed. Along one path no pair is entered twice, so the square of the number of tables bounds the
depth of the walk.

`alike` is `deep_eq`, `alikeFrom` its `deep_eq_values` and `alikeTables` its `deep_eq_tables`;
`hasCounterpart` is the search among `entries` for one entry. `Assumed` is the set `assumed`.

Out of scope: how deep calls may be nested before there is no more room for them.
-/

namespace LuaGraph.Heap

/-- Pairs of tables that are taken to be alike. -/
abbrev Assumed := List (TableId × TableId)

/-- The pair is among the assumptions. -/
def Assumed.holds (s : Assumed) (x y : TableId) : Bool := s.any fun p => p.1 == x && p.2 == y

theorem Assumed.holds_iff {s : Assumed} {x y : TableId} : s.holds x y = true ↔ (x, y) ∈ s := by
  simp [Assumed.holds]

/-- Comparing two values, which may add and withdraw assumptions. -/
abbrev Comparison := Value → Value → StateM Assumed Bool

/-- Scalars and handles that are alike. -/
def alikeScalars : Value → Value → Bool
  | .number m, .number n => (m.isNaN && n.isNaN) || m.same n
  | a, b => a.same b

/-- The entry has a counterpart in a table. -/
def hasCounterpart (compare : Comparison) (right : Table) (e : Entry) : StateM Assumed Bool :=
  if e.1.isTable then
    right.entries.anyM fun e' =>
      if e'.1.isTable then compare e.1 e'.1 <&&> compare e.2 e'.2 else pure false
  else
    match right.get? e.1 with
    | some v => compare e.2 v
    | none => pure false

/-- The tables have equally many entries and each of the first has a counterpart. -/
def alikeTables (compare : Comparison) (left right : Table) : StateM Assumed Bool :=
  if left.size = right.size then left.entries.allM (hasCounterpart compare right) else pure false

/-- Compares two values down to a depth. -/
def alikeFrom (H : Heap) : Nat → Comparison
  | depth + 1, .table x, .table y => fun s =>
    if x == y || s.holds x y then (true, s)
    else
      let (alike, s') := alikeTables (alikeFrom H depth) (H.table x) (H.table y) ((x, y) :: s)
      (alike, if alike then s' else s'.erase (x, y))
  | _, a, b => pure (alikeScalars a b)

/-- **The two values are structurally equal.** -/
def alike (H : Heap) (a b : Value) : Bool := (alikeFrom H (H.size * H.size) a b []).1

end LuaGraph.Heap
