import LuaGraph.Sorting.Runs

/-!
# Stable sorting

`stable` sorts a list and keeps the order of elements that are level (`sort_by`, as `sort_entries`
calls it). In a transitive order every stable sort gives the same list. Where level elements make an
order intransitive, as NaN does among numbers, the result depends on which elements are compared,
and the sort may panic instead, so the choice of the method is a part of what `stable` is:

* up to 20 elements are inserted one by one;
* more of them are sorted by runs, which are sorted when they are cut off in lists of up to 64
  elements;
* runs that are not, are parted around a *pivot*: what is below it, and the rest.

A list that was parted too often is sorted by runs of sorted elements.

Out of scope: how elements are moved about in memory.
-/

namespace LuaGraph.Sorting

open Contest (less)

variable {α : Type}

/-! ## Pivots -/

/-- The place of the middle one of the elements at three places. -/
def median (item : Nat → α) (a b c : Nat) : Contest α Nat := do
  let x ← less (item a) (item b)
  let y ← less (item a) (item c)
  if x == y then
    let z ← less (item b) (item c)
    return if z != x then c else b
  else return a

/-- The place of the median of medians of the elements at three places. In a wide list each of the
three stands for the median of three places in the `n` elements after it. -/
def medianOf (item : Nat → α) (n a b c : Nat) : Contest α Nat :=
  if n < 8 then median item a b c
  else do
    let m := n / 8
    let a ← medianOf item m a (a + 4 * m) (a + 7 * m)
    let b ← medianOf item m b (b + 4 * m) (b + 7 * m)
    let c ← medianOf item m c (c + 4 * m) (c + 7 * m)
    median item a b c
termination_by n
decreasing_by all_goals omega

/-- The place of an element that is likely to part a list of `n` elements evenly. -/
def pivot (item : Nat → α) (n : Nat) : Contest α Nat :=
  medianOf item (n / 8) 0 (4 * (n / 8)) (7 * (n / 8))

/-! ## Parting -/

/-- The elements that pass a test, and those that do not. -/
def part (test : α → Contest α Bool) : List α → Contest α (List α × List α)
  | [] => return ([], [])
  | x :: xs => do
    let passes ← test x
    let (yes, no) ← part test xs
    return if passes then (x :: yes, no) else (yes, x :: no)

/-- Parts a list by a test, but the element at a place goes to a given side untested. -/
def partAround (place : Nat) (side : Bool) (test : α → Contest α Bool) (xs : List α) :
    Contest α (List α × List α) := do
  let (yes, no) ← part test (xs.take place)
  let (yes', no') ← part test (xs.drop (place + 1))
  let placed := (xs.drop place).take 1
  if side then return (yes ++ (placed ++ yes'), no ++ no')
  else return (yes ++ yes', no ++ (placed ++ no'))

/-- Sorts a list by runs that are sorted when they are cut off. -/
def bySortedRuns (xs : List α) : Contest α (List α) := byRuns pure true xs

/-- Sorts a list by parting it, a limited number of times. No element is below `floor`; if a pivot
is not above it, all that is level with the pivot comes first and needs no sorting. -/
def parted : Nat → Option α → List α → Contest α (List α)
  | _, _, [] => return []
  | limit, floor, x :: xs =>
    if xs.length < 32 then short (x :: xs)
    else
      match limit with
      | 0 => bySortedRuns (x :: xs)
      | limit + 1 => do
        let i ← pivot (fun i => (x :: xs).getD i x) (x :: xs).length
        let p := (x :: xs).getD i x
        let onFloor ← (match floor with
          | some f => not <$> less f p
          | none => pure false)
        let (low, rest) ← (if onFloor then pure ([], x :: xs)
          else partAround i false (fun y => less y p) (x :: xs))
        if low.isEmpty then
          let (first, high) ← partAround i true (fun y => not <$> less p y) (x :: xs)
          let sorted ← parted limit none high
          return first ++ sorted
        else
          let lower ← parted limit floor low
          let upper ← parted limit (some p) rest
          return lower ++ upper

/-- Sorts a list by parting it. -/
def byParting (xs : List α) : Contest α (List α) := parted (2 * xs.length.log2) none xs

/-! ## Sorting -/

/-- **Sorts a list**; level elements keep their order. -/
def stable (xs : List α) : Contest α (List α) :=
  if xs.length ≤ 20 then byInsertion xs
  else byRuns byParting (decide (xs.length ≤ 64)) xs

end LuaGraph.Sorting
