import LuaGraph.Sorting.Short

/-!
# Sorting by runs

A list is cut into runs, which are merged two by two (the run sort of `sort_by`). Conventions:

* A stretch that ascends, or strictly descends, is a run of its own if it is long enough. Other
  runs have a fixed length; they are sorted when they are cut off, or left as they are at first.
* Runs that are still unsorted are joined by putting one behind the other, and sorted by `finish`
  when a sorted run is to be merged with them.
* The merges form a tree over the list. Two neighbours meet at the *depth* of the point between
  them: the number of binary digits that their middles have in common as fractions of the list.
  What lies deeper is merged first.
-/

namespace LuaGraph.Sorting

open Contest (less)

variable {α : Type}

/-- A part of a list. -/
structure Run (α : Type) where
  items : List α
  sorted : Bool

/-! ## Cutting -/

/-- The number of elements that follow one another after `x`. -/
def chain (follows : α → α → Contest α Bool) : α → List α → Contest α Nat
  | x, y :: ys => do
    if ← follows x y then
      let n ← chain follows y ys
      return n + 1
    else return 0
  | _, [] => return 0

/-- The length from which on a stretch is a run of its own, in a list of `n` elements: half of a
list of up to 128 elements, 64 in longer ones, and about the square root in lists of more than
`64 ^ 2`. -/
def goodLength (n : Nat) : Nat :=
  if n ≤ 64 * 64 then min (n - n / 2) 64
  else
    let k := (1 + n.log2) / 2
    (2 ^ k + n / 2 ^ k) / 2

/-- The stretch that a list of `x` and `xs` begins with: whether it descends, and the number of
elements of `xs` in it. -/
def stretch (x : α) : List α → Contest α (Bool × Nat)
  | [] => return (false, 0)
  | y :: ys => do
    let descends ← less y x
    let n ← chain (fun y z => if descends then less z y else not <$> less z y) y ys
    return (descends, n + 1)

/-- The first run of a list of `x` and `xs`, and the number of elements of `xs` in it. -/
def firstRun (cutSorted : Bool) (good : Nat) (x : α) (xs : List α) : Contest α (Run α × Nat) := do
  let (descends, n) ← (if good ≤ xs.length + 1 then stretch x xs else pure (false, 0))
  if good ≤ n + 1 then
    let items := x :: xs.take n
    return (⟨if descends then items.reverse else items, true⟩, n)
  else if cutSorted then
    let items ← short (x :: xs.take 31)
    return (⟨items, true⟩, 31)
  else return (⟨x :: xs.take (good - 1), false⟩, good - 1)

/-- The runs of a list. -/
def runs (cutSorted : Bool) (good : Nat) : List α → Contest α (List (Run α))
  | [] => return []
  | x :: xs => do
    let (run, n) ← firstRun cutSorted good x xs
    let after ← runs cutSorted good (xs.drop n)
    return run :: after
termination_by xs => xs.length
decreasing_by simp only [List.length_cons, List.length_drop]; omega

/-! ## Merging -/

/-- Two sorted lists merged from the front. Of two level elements the one of the first list comes
first. -/
def merge (less : α → α → Contest α Bool) (xs ys : List α) : Contest α (List α) := do
  let (taken, left, right) ← takeLeast less (xs.length + ys.length) xs ys
  return taken ++ (left ++ right)

/-- Two sorted lists merged from the side of the shorter one. -/
def mergeShorter (xs ys : List α) : Contest α (List α) :=
  if xs.length ≤ ys.length then merge less xs ys
  else List.reverse <$> merge (fun x y => less y x) ys.reverse xs.reverse

/-- The elements of a run, sorted. -/
def Run.settled (finish : List α → Contest α (List α)) (r : Run α) : Contest α (List α) :=
  if r.sorted then pure r.items else finish r.items

/-- Two neighbours as one run. -/
def Run.join (finish : List α → Contest α (List α)) (r s : Run α) : Contest α (Run α) := do
  if r.sorted || s.sorted then
    let xs ← r.settled finish
    let ys ← s.settled finish
    let zs ← mergeShorter xs ys
    return ⟨zs, true⟩
  else return ⟨r.items ++ s.items, false⟩

/-- The depth at which two neighbours meet in a list of `n` elements, given where the first begins,
where they meet and where the second ends. -/
def depth (n start middle stop : Nat) : Nat :=
  let scale := (2 ^ 62 + n - 1) / n
  let differ := (scale * (start + middle)) ^^^ (scale * (middle + stop))
  if differ = 0 then 64 else 63 - differ.log2

/-- Joins a run with the runs before it that it meets at a depth or below. -/
def collapse (finish : List α → Contest α (List α)) (depth : Nat) :
    List (Run α × Nat) → Run α → Contest α (List (Run α × Nat) × Run α)
  | (r, d) :: before, run => do
    if depth ≤ d then
      let joined ← r.join finish run
      collapse finish depth before joined
    else return ((r, d) :: before, run)
  | [], run => return ([], run)

/-- Joins the runs of a list of `n` elements: those before, with the depths at which they meet what
is next to them, one that begins at `start`, and those after it. -/
def tree (finish : List α → Contest α (List α)) (n : Nat) :
    List (Run α × Nat) → Nat → Run α → List (Run α) → Contest α (Run α)
  | before, _, run, [] => do
    let (_, run) ← collapse finish 0 before run
    return run
  | before, start, run, next :: after => do
    let middle := start + run.items.length
    let d := depth n start middle (middle + next.items.length)
    let (before, run) ← collapse finish d before run
    tree finish n ((run, d) :: before) middle next after

/-- **Sorts a list by runs.** -/
def byRuns (finish : List α → Contest α (List α)) (cutSorted : Bool) (xs : List α) :
    Contest α (List α) := do
  match ← runs cutSorted (goodLength xs.length) xs with
  | [] => return []
  | run :: after =>
    let run ← tree finish xs.length [] 0 run after
    run.settled finish

end LuaGraph.Sorting
