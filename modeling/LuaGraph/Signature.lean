import LuaGraph.Sketch

/-!
# Signatures

The signature of a table is its text on one line in the default options, cut where it gets too
long or too deep (`signature`). A table that was met before in the text is marked `@`, and so is one
whose signature is being taken: to write a table its keys are sorted, and for that the signatures of
its table keys are taken, which may lead back to it.

`signatureFrom?` is told which tables are being signed (`SIGNING`). Each step signs one more, so the
number of tables that are not being signed bounds the recursion, and a bound of the number of all
tables is enough at the start. There is no signature and no listing where a sort panics on the way.

Out of scope: signatures that are taken after a panic was caught, when tables are left in `SIGNING`.
-/

namespace LuaGraph

namespace Sketch

/-- The manner of signatures. -/
def signing : Manner where
  marks := true
  limit := Options.compact.inlineLimit
  maxDepth := Options.compact.limits.maxDepth

/-- The text of a value, up to where it is cut. -/
def textOf {m : Type → Type} [Monad m] (listing : TableId → m Listing) (v : Value) : m String := do
  let (_, k) ← draw signing listing v
  return k.text

end Sketch

namespace Heap

/-- The signature of a table while others are being signed. -/
def signatureFrom? (H : Heap) : Nat → List TableId → TableId → Option String
  | 0, _, _ => some "@"
  | steps + 1, signing, t =>
    if t ∈ signing then some "@"
    else
      Sketch.textOf
        (fun u => Listing.ofTable (H.signatureFrom? steps (t :: signing)) (H.table u)) (.table t)

/-- **The signature of a table.** -/
def signature? (H : Heap) (t : TableId) : Option String := H.signatureFrom? H.size [] t

/-- The listing of a table. -/
def listing? (H : Heap) (t : TableId) : Option Listing := Listing.ofTable H.signature? (H.table t)

/-- Entries as they are written. -/
def sortEntries? (H : Heap) (es : List Entry) : Option (List Entry) :=
  Listing.sortEntries H.signature? es

end Heap

end LuaGraph
