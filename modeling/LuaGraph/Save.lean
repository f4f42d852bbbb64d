import LuaGraph.Document

/-!
# Saving

Bindings are saved as a text that a checker accepts. The forms of the text make up a ladder: where
a text is rejected, the next form is tried, and only a rejection in the last form is an error.
Conventions:

* A checker may keep a state, so its verdict on a text may depend on the texts before.
* `entriesOf` adds a binding to nil for every required key that has none.
* With more tables than the threshold of the options, the tree form is passed over.
* A document with a table that is too deep is rejected without asking the checker.
* Where a sort panics, so does what is done here, and there is neither a text nor an error.

`entriesOf?` is `collect_bindings`, `render?` is `render`, `attempt?` is `Persister::attempt` and
`save?` is `Persister::persist`. The entries and the census are the same at every attempt of one
`persist`, so they are made once.

Out of scope: what is written to the log.

Result: the forms that are tried climb strictly (`rank_le_effective`).
-/

namespace LuaGraph

/-- What decides whether a text can be loaded, with a state of its own. -/
abbrev Check (σ : Type) := String → StateM σ (Except Error Unit)

/-- A form that was tried, and its text or why it was rejected. -/
structure Attempt where
  form : Form
  outcome : Except Error String

namespace Attempt

/-- The words for a rejected attempt. -/
def message (form : Form) (reason : Error) : String :=
  form.name ++ " strategy rejected: " ++ reason.message

end Attempt

/-- What runs with a checker, and may panic. -/
abbrev Saving (σ : Type) := OptionT (StateM σ)

namespace Save

/-- The entries to be written: those of the bindings, and nil for the required keys that are not
among them. -/
def entriesOf? (H : Heap) (bindings : TableId) (required : Option TableId) :
    Option (List Entry) :=
  let present := H.table bindings
  let missing := match required with
    | some r => ((H.table r).keys.filter fun k => !present.contains k).map fun k => (k, .nil)
    | none => []
  H.sortEntries? (present.entries ++ missing)

/-- The census of the keys and values of some entries. -/
def censusOf? (H : Heap) (es : List Entry) : Option Census :=
  Census.ofValues? H (es.flatMap fun e => [e.1, e.2])

/-- The form that is tried in place of the one asked for. -/
def effective (o : Options) (c : Census) (form : Form) : Form :=
  if o.tableThreshold < c.size ∧ form = .tree then .reference else form

theorem rank_le_effective (o : Options) (c : Census) (form : Form) :
    form.rank ≤ (effective o c form).rank := by
  unfold effective
  split
  · simp_all [Form.rank]
  · exact Nat.le_refl _

/-- The layout that the options ask for. -/
def layoutOf (o : Options) : Layout := if o.pretty then .pretty o.indent else .compact

/-- The text of some entries in a form, unless a table is too deep. -/
def render? (H : Heap) (o : Options) (c : Census) (es : List Entry) (form : Form) :
    Option (Except Error String) := do
  let d ← Document.ofBindings? H o form c es
  return if d.isTooDeep then .error (.tooDeep o.limits.maxDepth) else .ok (d.text (layoutOf o))

variable {σ : Type}

/-- Tries one form, exactly as given. -/
def tryForm? (check : Check σ) (H : Heap) (o : Options) (c : Census) (es : List Entry)
    (form : Form) : Saving σ Attempt := do
  match ← (render? H o c es form).getM with
  | .error e => return ⟨form, .error e⟩
  | .ok text =>
    match ← check text with
    | .error e => return ⟨form, .error e⟩
    | .ok () => return ⟨form, .ok text⟩

/-- Tries forms from one on until one is accepted or the last is rejected; gives all attempts. -/
def climb? (check : Check σ) (H : Heap) (o : Options) (c : Census) (es : List Entry)
    (form : Form) : Saving σ (List Attempt) := do
  let tried ← tryForm? check H o c es (effective o c form)
  match tried.outcome with
  | .ok _ => return [tried]
  | .error _ =>
    match h : (effective o c form).next? with
    | none => return [tried]
    | some next =>
      have : form.rank < next.rank :=
        Nat.lt_of_le_of_lt (rank_le_effective o c form) (Form.rank_lt_of_next? h)
      have : next.rank ≤ 2 := by cases next <;> decide
      let later ← climb? check H o c es next
      return tried :: later
termination_by 2 - form.rank

/-- The result of a ladder: the text of its last attempt, or why that was rejected. -/
def resultOf : List Attempt → Except Error String
  | [] => .error (.unrecoverable .split "")
  | [a] =>
    match a.outcome with
    | .ok text => .ok text
    | .error reason => .error (.unrecoverable a.form reason.message)
  | _ :: a :: as => resultOf (a :: as)

/-- Tries the form asked for, or the one that takes its place. -/
def attempt? (check : Check σ) (H : Heap) (o : Options) (bindings : TableId)
    (required : Option TableId) (form : Form) : Saving σ Attempt := do
  let es ← (entriesOf? H bindings required).getM
  let c ← (censusOf? H es).getM
  tryForm? check H o c es (effective o c form)

/-- **Saves bindings** as a text that the checker accepts. -/
def save? (check : Check σ) (H : Heap) (o : Options) (bindings : TableId)
    (required : Option TableId) : Saving σ (Except Error String) := do
  let es ← (entriesOf? H bindings required).getM
  let c ← (censusOf? H es).getM
  resultOf <$> climb? check H o c es o.form

end Save

end LuaGraph
