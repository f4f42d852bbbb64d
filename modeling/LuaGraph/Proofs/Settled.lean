import LuaGraph.Inline
import LuaGraph.Save

/-!
# Where no sort panics

Listings, and all that is made of them, are options: there is none where a sort panics. As long as
no sort does, they are plain functions of the heap, and these are the functions here, under the
names of the options without their question marks. Where a sort panics they take entries as they
come in; then what they give is no result of anything, but it still holds the same entries, so that
most of what is proved about them need not ask whether the sorts of a heap return.

`Proofs/Panics` says when the options are these functions, and that a panic is all that they give
otherwise. What is said of the program is said of the options.
-/

namespace LuaGraph

/-! ## Listings -/

/-- The listing of a table without sorting. -/
def Listing.unsorted (t : Table) : Listing where
  items := (List.range t.run).map fun i => t.get (.index (i + 1))
  fields := (t.entries.filter fun e => !inRun t e.1).filter fun e => !e.1.isHandle

namespace Heap

/-- The listing of a table. -/
def listing (H : Heap) (t : TableId) : Listing :=
  (H.listing? t).getD (.unsorted (H.table t))

end Heap

/-! ## Censuses -/

namespace Census

/-- Visits a table and, if it is new, what it leads to, down to a depth. -/
def visit (H : Heap) : Nat → Census → TableId → Census
  | 0, c, t => c.again t
  | depth + 1, c, t =>
    if c.count t = 0 then (children (H.listing t)).foldl (visit H depth) (c.first t)
    else c.again t

/-- Visits a value. -/
def visitValue (H : Heap) (c : Census) (v : Value) : Census :=
  match v.table? with
  | some t => visit H H.size c t
  | none => c

/-- The census of what can be reached from some values. -/
def ofValues (H : Heap) (vs : List Value) : Census := vs.foldl (visitValue H) (start H)

end Census

/-! ## Documents -/

namespace Term

/-- The fields of a listing, with its values turned into terms. -/
def fieldsOf (term : Value → Term) (l : Listing) : List Field :=
  l.items.map (fun v => .item (term v)) ++ l.fields.map fun e => .pair (term e.1) (term e.2)

/-- The term of a value. -/
def ofValue (listing : TableId → Listing) (slot? : TableId → Option Nat) : Nat → Value → Term
  | depth, v =>
    match v.view with
    | .inl a => atom a
    | .inr t =>
      match slot? t with
      | some i => slot i
      | none =>
        match depth with
        | 0 => tooDeep
        | depth + 1 => table (fieldsOf (ofValue listing slot? depth) (listing t))

end Term

namespace Document

/-- The fill statements of the tables in the slots. -/
def fills (listing : TableId → Listing) (term : Value → Term) (slots : List TableId) : List Fill :=
  (slots.zipIdx 1).flatMap fun (t, i) =>
    (listing t).pairs.map fun e => ⟨i, term e.1, term e.2⟩

/-- The document of some bindings in a form. -/
def ofBindings (H : Heap) (o : Options) (form : Form) (c : Census) (es : List Entry) : Document :=
  let slots := slotted form c
  let term := Term.ofValue H.listing (slotIn? slots) o.limits.maxDepth
  let fills := fills H.listing term slots
  { slots := slots.length
    split := form == .split
    blocks := if form = .split then Fill.blocks o.blockBudget fills else [fills]
    bindings := es.map fun e => ⟨term e.1, term e.2⟩ }

end Document

/-! ## Saving -/

namespace Save

/-- The entries that stand for required keys without a binding. -/
def missing (H : Heap) (bindings : TableId) (required : Option TableId) : List Entry :=
  match required with
  | some r => ((H.table r).keys.filter fun k => !(H.table bindings).contains k).map fun k =>
      (k, .nil)
  | none => []

/-- The entries to be written. -/
def entriesOf (H : Heap) (bindings : TableId) (required : Option TableId) : List Entry :=
  (entriesOf? H bindings required).getD
    (((H.table bindings).entries ++ missing H bindings required).filter fun e => !e.1.isHandle)

/-- The census of the keys and values of some entries. -/
def censusOf (H : Heap) (es : List Entry) : Census :=
  Census.ofValues H (es.flatMap fun e => [e.1, e.2])

/-- The text of some entries in a form, unless a table is too deep. -/
def render (H : Heap) (o : Options) (c : Census) (es : List Entry) (form : Form) :
    Except Error String :=
  let d := Document.ofBindings H o form c es
  if d.isTooDeep then .error (.tooDeep o.limits.maxDepth) else .ok (d.text (layoutOf o))

variable {σ : Type}

/-- Tries one form, exactly as given. -/
def tryForm (check : Check σ) (H : Heap) (o : Options) (c : Census) (es : List Entry)
    (form : Form) : StateM σ Attempt :=
  match render H o c es form with
  | .error e => pure ⟨form, .error e⟩
  | .ok text => do
    match ← check text with
    | .error e => pure ⟨form, .error e⟩
    | .ok () => pure ⟨form, .ok text⟩

/-- Tries forms from one on until one is accepted or the last is rejected; gives all attempts. -/
def climb (check : Check σ) (H : Heap) (o : Options) (c : Census) (es : List Entry)
    (form : Form) : StateM σ (List Attempt) := do
  let tried ← tryForm check H o c es (effective o c form)
  match tried.outcome with
  | .ok _ => pure [tried]
  | .error _ =>
    match h : (effective o c form).next? with
    | none => pure [tried]
    | some next =>
      have : form.rank < next.rank :=
        Nat.lt_of_le_of_lt (rank_le_effective o c form) (Form.rank_lt_of_next? h)
      have : next.rank ≤ 2 := by cases next <;> decide
      (tried :: ·) <$> climb check H o c es next
termination_by 2 - form.rank

/-- Tries the form asked for, or the one that takes its place. -/
def attempt (check : Check σ) (H : Heap) (o : Options) (bindings : TableId)
    (required : Option TableId) (form : Form) : StateM σ Attempt :=
  let es := entriesOf H bindings required
  let c := censusOf H es
  tryForm check H o c es (effective o c form)

/-- Saves bindings as a text that the checker accepts. -/
def save (check : Check σ) (H : Heap) (o : Options) (bindings : TableId)
    (required : Option TableId) : StateM σ (Except Error String) :=
  let es := entriesOf H bindings required
  resultOf <$> climb check H o (censusOf H es) es o.form

end Save

end LuaGraph
