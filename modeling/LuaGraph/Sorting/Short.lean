import LuaGraph.Sorting.Contest

/-!
# Sorting short lists

A short list is sorted by halves: each half by insertion, then both are merged (the small sort of
`sort_by`). What answers the questions need not be transitive; what is never done is to move an
element past one that it is level with. Conventions:

* An insertion goes down from the greatest element to the first that is not greater.
* Half of the merged list is taken from the front and half from the back (`bidirectional_merge`). In
  a transitive order the two never overlap. Where they do, the contest is broken: this is
  `panic_on_ord_violation`, the panic that `sort_by` documents for orders that are not total.
-/

namespace LuaGraph.Sorting

open Contest (less)

variable {α : Type}

/-! ## Insertion -/

/-- Puts an element behind all that it is not less than, in a list that is read from its greatest
element on. -/
def insertDown (x : α) : List α → Contest α (List α)
  | [] => return [x]
  | y :: ys => do
    if ← less x y then
      let zs ← insertDown x ys
      return y :: zs
    else return x :: y :: ys

/-- Inserts elements one by one into a sorted list. -/
def insertAll (sorted xs : List α) : Contest α (List α) :=
  List.reverse <$> xs.foldlM (fun ys x => insertDown x ys) sorted.reverse

/-- Sorts a list by insertion. -/
def byInsertion (xs : List α) : Contest α (List α) := insertAll [] xs

/-! ## Four elements -/

/-- Two elements in order, and whether they were exchanged for that. -/
def two (x y : α) : Contest α (α × α × Bool) := do
  if ← less y x then return (y, x, true) else return (x, y, false)

/-- Four elements in order, by five questions: the lesser two of two ordered pairs and the greater
two give the least and the greatest element, then the other two are compared in the order in which
they came. -/
def four (p q r s : α) : Contest α (List α) := do
  let (a, b, _) ← two p q
  let (c, d, _) ← two r s
  let (least, x, exchanged) ← two a c
  let (y, greatest, exchanged') ← two b d
  let (z, w, _) ← if exchanged || exchanged' then two x y else two y x
  return [least, z, w, greatest]

/-! ## Merging -/

/-- The `n` least elements of two sorted lists, as long as both have some left, and what is left
of each. Of two level elements the one of the first list is taken. -/
def takeLeast (less : α → α → Contest α Bool) :
    Nat → List α → List α → Contest α (List α × List α × List α)
  | n + 1, x :: xs, y :: ys => do
    if ← less y x then
      let (taken, left, right) ← takeLeast less n (x :: xs) ys
      return (y :: taken, left, right)
    else
      let (taken, left, right) ← takeLeast less n xs (y :: ys)
      return (x :: taken, left, right)
  | _, xs, ys => return ([], xs, ys)

/-- Two sorted lists merged from the front and from the back at once, as many elements from either
side as the first list has. The contest is broken if an element is taken from both. -/
def mergeFromEnds (xs ys : List α) : Contest α (List α) := do
  let n := xs.length
  let (low, xs₁, ys₁) ← takeLeast less n xs ys
  let (high, ys₂, xs₂) ← takeLeast (fun a b => less b a) n ys.reverse xs.reverse
  let i := xs.length - xs₁.length
  let j := ys.length - ys₁.length
  if i ≤ xs₂.length ∧ j ≤ ys₂.length then
    return low ++ (xs₂.reverse.drop i ++ ys₂.reverse.drop j) ++ high.reverse
  else .broken

/-! ## Short lists -/

/-- A half in order. In long halves the first four elements are put in order at once. -/
def half (long : Bool) : List α → Contest α (List α)
  | p :: q :: r :: s :: xs => do
    if long then
      let ys ← four p q r s
      insertAll ys xs
    else byInsertion (p :: q :: r :: s :: xs)
  | xs => byInsertion xs

/-- **A short list in order.** -/
def short (xs : List α) : Contest α (List α) := do
  let long := decide (8 ≤ xs.length)
  let low ← half long (xs.take (xs.length / 2))
  let high ← half long (xs.drop (xs.length / 2))
  mergeFromEnds low high

end LuaGraph.Sorting
