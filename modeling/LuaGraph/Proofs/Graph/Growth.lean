import LuaGraph.Proofs.Chunk.Evaluation
import LuaGraph.Proofs.Graph.Written

/-!
# Growing heaps

A chunk that is made from a heap writes *copies*: a table is renumbered, an entry whose value is
nil or a handle is left out. What the statements of such a chunk do is described by one relation on
machines, `Grows`: entries are added at the end of some tables, and copies of some tables are added
to the heap, whose numbers are those that come next (`Numbers`).

Results: growth can be composed (`Grows.trans`), and storing under a new key is growth
(`setEntry_grows`).
-/

namespace LuaGraph

open Chunk

/-! ## Copies -/

namespace Value

/-- The value in a heap where tables have other numbers. Nil stands for a handle. -/
def copied (φ : TableId → TableId) : Value → Value
  | table t => table (φ t)
  | function _ => nil
  | userdata _ => nil
  | v => v

/-- A value that leaves an entry where it is stored: neither nil nor a handle. -/
def isKept (v : Value) : Bool := !v.isHandle && !v.isNil

variable {φ : TableId → TableId} {v : Value}

theorem copied_eq_nil_iff : v.copied φ = nil ↔ v.isKept = false := by
  cases v <;> simp [copied, isKept, isHandle, isNil, kind]

/-- The copy of a key is a key. -/
theorem IsKey.copied (h : v.IsKey) (hv : v.isHandle = false) : (v.copied φ).IsKey := by
  cases v with
  | function _ => cases hv
  | userdata _ => cases hv
  | table _ => rfl
  | _ => exact h

end Value

/-- The copies of the entries whose values leave one. -/
def copyOf (φ : TableId → TableId) (es : List Entry) : List Entry :=
  (es.filter fun e => e.2.isKept).map fun e => (e.1.copied φ, e.2.copied φ)

variable {φ : TableId → TableId}

theorem copyOf_append (es es' : List Entry) :
    copyOf φ (es ++ es') = copyOf φ es ++ copyOf φ es' := by
  simp [copyOf]

theorem copyOf_singleton (e : Entry) : copyOf φ [e] =
    if e.2.copied φ = .nil then [] else [(e.1.copied φ, e.2.copied φ)] := by
  unfold copyOf
  rw [List.filter_cons]
  cases h : e.2.isKept with
  | false => rw [if_pos (Value.copied_eq_nil_iff.2 h), if_neg Bool.false_ne_true]; rfl
  | true =>
    have hne : ¬e.2.copied φ = .nil := fun hn => by simp [Value.copied_eq_nil_iff.1 hn] at h
    rw [if_pos rfl, if_neg hne]
    rfl

theorem mem_keys_copyOf {es : List Entry} {k : Value} (h : k ∈ (copyOf φ es).map Prod.fst) :
    k ∈ es.map fun e => e.1.copied φ := by
  unfold copyOf at h
  rw [List.map_map] at h
  exact (List.filter_sublist.map _).subset h

/-- The tables have the numbers from `k` on, in order. -/
def Numbers (φ : TableId → TableId) (k : Nat) (ts : List TableId) : Prop :=
  ts.map φ = List.range' k ts.length

namespace Numbers

variable {k : Nat} {t : TableId} {ts us : List TableId}

theorem append : Numbers φ k (ts ++ us) ↔ Numbers φ k ts ∧ Numbers φ (k + ts.length) us := by
  unfold Numbers
  rw [List.map_append, List.length_append, ← List.range'_append_1]
  constructor
  · intro h
    exact List.append_inj h (by simp)
  · rintro ⟨h, h'⟩
    rw [h, h']

theorem cons : Numbers φ k (t :: ts) ↔ φ t = k ∧ Numbers φ (k + 1) ts := by
  simp [Numbers, List.range'_succ]

theorem bounds (h : Numbers φ k ts) (ht : t ∈ ts) : k ≤ φ t ∧ φ t < k + ts.length := by
  have : φ t ∈ List.range' k ts.length := h ▸ List.mem_map_of_mem ht
  simpa [List.mem_range'_1] using this

end Numbers

/-! ## Growth -/

/-- Entries are added to some tables, and copies of some tables of `H` are added to the heap. -/
structure Grows (H : Heap) (φ : TableId → TableId) (added : TableId → List Entry)
    (ts : List TableId) (m m' : Machine) : Prop where
  size : m'.heap.size = m.heap.size + ts.length
  entries : ∀ i < m.heap.size, (m'.heap.table i).entries = (m.heap.table i).entries ++ added i
  copies : ∀ t ∈ ts, (m'.heap.table (φ t)).entries = copyOf φ (H.pairs t)
  environment : m'.environment = m.environment
  scopes : m'.scopes = m.scopes

/-- Entries that are added to one table. -/
def addedTo (i : TableId) (es : List Entry) : TableId → List Entry :=
  fun j => if j = i then es else []

theorem addedTo_self (i : TableId) (es : List Entry) : addedTo i es i = es := if_pos rfl

theorem addedTo_of_ne {i j : TableId} (h : j ≠ i) (es : List Entry) : addedTo i es j = [] :=
  if_neg h

theorem addedTo_nil (i : TableId) : addedTo i [] = fun _ => [] := by
  funext j
  unfold addedTo
  split <;> rfl

theorem addedTo_append (i : TableId) (es es' : List Entry) :
    addedTo i (es ++ es') = fun j => addedTo i es j ++ addedTo i es' j := by
  funext j
  unfold addedTo
  split <;> rfl

namespace Grows

variable {H : Heap} {added added' : TableId → List Entry} {ts us : List TableId}
  {m m' m'' : Machine}

theorem refl (m : Machine) : Grows H φ (fun _ => []) [] m m where
  size := rfl
  entries _ _ := (List.append_nil _).symm
  copies _ h := absurd h List.not_mem_nil
  environment := rfl
  scopes := rfl

/-- **Growth after growth.** What is added later goes to tables that were there before. -/
theorem trans (h : Grows H φ added ts m m') (h' : Grows H φ added' us m' m'')
    (hn : Numbers φ m.heap.size ts) (hold : ∀ i, m.heap.size ≤ i → added' i = []) :
    Grows H φ (fun i => added i ++ added' i) (ts ++ us) m m'' where
  size := by rw [h'.size, h.size, List.length_append, Nat.add_assoc]
  entries i hi := by
    rw [h'.entries i (by rw [h.size]; omega), h.entries i hi, List.append_assoc]
  copies t ht := by
    rcases List.mem_append.1 ht with ht | ht
    · obtain ⟨hge, hlt⟩ := hn.bounds ht
      rw [h'.entries _ (by rw [h.size]; exact hlt), hold _ hge, List.append_nil]
      exact h.copies t ht
    · exact h'.copies t ht
  environment := h'.environment.trans h.environment
  scopes := h'.scopes.trans h.scopes

theorem size_le (h : Grows H φ added ts m m') : m.heap.size ≤ m'.heap.size := by
  rw [h.size]
  exact Nat.le_add_right ..

end Grows

/-- **Storing under a new key** adds an entry, or nothing where the value is nil. -/
theorem setEntry_grows (H : Heap) {i : TableId} {k v : Value} {m : Machine} (hi : i < m.heap.size)
    (hk : k.IsKey) (hnew : k ∉ (m.heap.table i).keys) :
    ∃ m', Run.setEntry i k v m = .ok () m' ∧
      Grows H φ (addedTo i (if v = .nil then [] else [(k, v)])) [] m m' := by
  refine ⟨{ m with heap := m.heap.update i (·.write k v) }, ?_, ?_⟩
  · unfold Run.setEntry
    have hkey : k.toKey = .ok k := hk
    rw [hkey]
  · have hwrite : ((m.heap.table i).write k v).entries =
        (m.heap.table i).entries ++ if v = .nil then [] else [(k, v)] := by
      unfold Table.write
      split
      · rw [Table.erase_of_notMem hk hnew, List.append_nil]
      · exact Table.put_of_notMem hnew v
    refine ⟨(Heap.size_update ..).trans (Nat.add_zero _).symm, fun j hj => ?_,
      fun t ht => absurd ht List.not_mem_nil, rfl, rfl⟩
    show ((m.heap.update i (·.write k v)).table j).entries = _
    rw [Heap.table_update]
    by_cases hji : j = i
    · subst hji
      rw [if_pos ⟨rfl, hi⟩, hwrite, addedTo_self]
    · rw [if_neg (fun h => hji h.1), addedTo_of_ne hji, List.append_nil]

end LuaGraph
