import LuaGraph.Document
import LuaGraph.Proofs.Graph.Growth

/-!
# Evaluating the terms of values

The tree of the term of a value is evaluated (`eval`) to a copy of the value: a table in a slot to
what the slot holds, a table that is written out to a new table with copies of its entries. The only
things that change are the new tables, which are those that `written` lists, in this order.

A constructor stores the entries of its table one by one. `Parts` relates its parts to these
entries, whether they have a key of their own or take the next place.

Result: `eval_term`.
-/

namespace LuaGraph

open Chunk Run

/-! ## Slots -/

/-- The table `r` is the value of the local variable for slots, and holds the copies of the tables
that have a slot. -/
def Resolves (slot? : TableId → Option Nat) (φ : TableId → TableId) (r : TableId) (m : Machine) :
    Prop :=
  ∀ t i, slot? t = some i → local? m.scopes Term.slotTable = some (.table r) ∧ r < m.heap.size ∧
    (m.heap.table r).get (.index i) = .table (φ t)

section

variable {H : Heap} {slot? : TableId → Option Nat} {φ : TableId → TableId} {r : TableId}
  {added : TableId → List Entry} {ts : List TableId} {m m' : Machine}

theorem get_eq_of_entries {t t' : Table} (h : t.entries = t'.entries) (k : Value) :
    t.get k = t'.get k := by
  unfold Table.get Table.get?
  rw [h]

/-- Slots keep their tables as long as nothing is stored in the table of slots. -/
theorem Resolves.grows (h : Resolves slot? φ r m) (hg : Grows H φ added ts m m')
    (hr : ∀ t i, slot? t = some i → added r = []) : Resolves slot? φ r m' := by
  intro t i ht
  obtain ⟨hlocal, hlt, hget⟩ := h t i ht
  refine ⟨by rw [hg.scopes, hlocal], Nat.lt_of_lt_of_le hlt hg.size_le, ?_⟩
  rw [← hget]
  refine get_eq_of_entries ?_ _
  rw [hg.entries r hlt, hr t i ht, List.append_nil]

end

/-! ## Parts of a constructor -/

variable (H : Heap) (slot? : TableId → Option Nat) (depth : Nat)

/-- The term of a value. -/
def termOf (v : Value) : Term := Term.ofValue H.listing slot? depth v

/-- The tables that are written out in the term of a value. -/
def writtenIn (v : Value) : List TableId :=
  v.table?.toList.flatMap (written H.children (fun t => (slot? t).isSome) depth)

/-- The tables that are written out with an entry in a constructor. -/
def writtenWith (e : Entry) : List TableId :=
  writtenIn H slot? depth e.1 ++ writtenIn H slot? depth e.2

/-- The parts of a constructor, after `p` values of a sequence, store these entries. -/
inductive Parts : Nat → List Part → List Entry → Prop
  | nil {p : Nat} : Parts p [] []
  | item {p : Nat} {v : Value} {parts : List Part} {es : List Entry} : Parts (p + 1) parts es →
      Parts p (.item (termOf H slot? depth v).expr :: parts) ((.index (p + 1), v) :: es)
  | pair {p : Nat} {k v : Value} {parts : List Part} {es : List Entry} : Parts p parts es →
      Parts p (.pair (termOf H slot? depth k).expr (termOf H slot? depth v).expr :: parts)
        ((k, v) :: es)

variable {H slot? depth}

theorem fieldParts_append (fs gs : List Field) :
    Term.fieldParts (fs ++ gs) = Term.fieldParts fs ++ Term.fieldParts gs := by
  induction fs with
  | nil => rfl
  | cons f fs ih => rw [List.cons_append, Term.fieldParts, Term.fieldParts, ih, List.cons_append]

/-- The parts of the constructor of a listing store its pairs. -/
theorem parts_fieldsOf (l : Listing) : Parts H slot? depth 0
    (Term.fieldParts (Term.fieldsOf (termOf H slot? depth) l)) l.pairs := by
  have hfields (p : Nat) (es : List Entry) : Parts H slot? depth p (Term.fieldParts
      (es.map fun e => .pair (termOf H slot? depth e.1) (termOf H slot? depth e.2))) es := by
    induction es with
    | nil => exact .nil
    | cons e es ih => exact .pair ih
  have hitems (p : Nat) (vs : List Value) : Parts H slot? depth p
      (Term.fieldParts (vs.map fun v => .item (termOf H slot? depth v)) ++ Term.fieldParts
        (l.fields.map fun e => .pair (termOf H slot? depth e.1) (termOf H slot? depth e.2)))
      (((vs.zipIdx (p + 1)).map fun x => (.index x.2, x.1)) ++ l.fields) := by
    induction vs generalizing p with
    | nil => exact hfields p l.fields
    | cons v vs ih => exact .item (ih (p + 1))
  rw [Term.fieldsOf, fieldParts_append]
  exact hitems 0 l.items

theorem flatMap_tablesOf (es : List Entry) :
    (Listing.tablesOf es).flatMap (written H.children (fun t => (slot? t).isSome) depth) =
      es.flatMap (writtenWith H slot? depth) := by
  unfold Listing.tablesOf writtenWith writtenIn
  rw [List.flatMap_assoc]
  refine List.flatMap_congr fun e _ => ?_
  cases h₁ : e.1.table? <;> cases h₂ : e.2.table? <;> simp [h₁, h₂]

/-- The tables that are written out in a table without a slot: itself and those in its entries. -/
theorem writtenIn_table {t : TableId} (h : slot? t = none) :
    writtenIn H slot? (depth + 1) (.table t) =
      t :: (H.pairs t).flatMap (writtenWith H slot? depth) := by
  unfold writtenIn
  rw [← flatMap_tablesOf, Value.table?, Option.toList_some, List.flatMap_singleton, written, h]
  rw [Heap.children, Listing.children_eq]
  rfl

theorem termOf_atom {v : Value} {a : Atom} (h : v.view = .inl a) :
    termOf H slot? depth v = .atom a := by
  unfold termOf Term.ofValue
  rw [h]

theorem termOf_slot {t : TableId} {i : Nat} (h : slot? t = some i) :
    termOf H slot? depth (.table t) = .slot i := by
  unfold termOf Term.ofValue
  simp only [Value.view, h]

theorem termOf_zero {t : TableId} (h : slot? t = none) :
    termOf H slot? 0 (.table t) = .tooDeep := by
  unfold termOf Term.ofValue
  simp only [Value.view, h]

theorem termOf_succ {t : TableId} (h : slot? t = none) : termOf H slot? (depth + 1) (.table t) =
    .table (Term.fieldsOf (termOf H slot? depth) (H.listing t)) := by
  unfold termOf
  rw [Term.ofValue]
  simp only [Value.view, h]

theorem writtenIn_atom {v : Value} {a : Atom} (h : v.view = .inl a) :
    writtenIn H slot? depth v = [] := by
  cases v <;> first | rfl | cases h

theorem writtenIn_slot {t : TableId} {i : Nat} (h : slot? t = some i) :
    writtenIn H slot? depth (.table t) = [] := by
  cases depth <;> simp [writtenIn, Value.table?, written, h]

/-- **Induction on the term of a value**: the value is an atom, or a table that has a slot, is cut
off, or is written out with all values one level less deep. -/
@[elab_as_elim]
theorem termOf_induction (slot? : TableId → Option Nat) {motive : Nat → Value → Prop}
    (atom : ∀ depth v a, v.view = .inl a → motive depth v)
    (slot : ∀ depth t i, slot? t = some i → motive depth (.table t))
    (tooDeep : ∀ t, slot? t = none → motive 0 (.table t))
    (table : ∀ depth t, slot? t = none → (∀ v, motive depth v) → motive (depth + 1) (.table t))
    (depth : Nat) (v : Value) : motive depth v := by
  induction depth generalizing v with
  | zero =>
    cases v with
    | table t =>
      cases hs : slot? t with
      | none => exact tooDeep t hs
      | some i => exact slot 0 t i hs
    | _ => exact atom 0 _ _ rfl
  | succ depth ih =>
    cases v with
    | table t =>
      cases hs : slot? t with
      | none => exact table depth t hs ih
      | some i => exact slot (depth + 1) t i hs
    | _ => exact atom (depth + 1) _ _ rfl

/-! ## Depth -/

theorem anyTooDeep_iff {fs : List Field} :
    Term.anyTooDeep fs = false ↔ ∀ f ∈ fs, Term.fieldTooDeep f = false := by
  induction fs with
  | nil => simp [Term.anyTooDeep]
  | cons f fs ih => simp [Term.anyTooDeep, ih]

theorem termOf_index (i : Nat) :
    termOf H slot? depth (.index i) = .atom (.number (.integer (Int64.ofNat i))) :=
  termOf_atom rfl

/-- What holds of the fields of a listing, if it comes down to what holds of the terms of its pairs,
and holds of the places in a sequence. -/
theorem forall_fieldsOf_iff {P : Term → Prop} {Q : Field → Prop} {l : Listing}
    (hindex : ∀ i, P (termOf H slot? depth (.index i))) (hitem : ∀ v, Q (.item v) ↔ P v)
    (hpair : ∀ k v, Q (.pair k v) ↔ P k ∧ P v) :
    (∀ f ∈ Term.fieldsOf (termOf H slot? depth) l, Q f) ↔
      ∀ e ∈ l.pairs, P (termOf H slot? depth e.1) ∧ P (termOf H slot? depth e.2) := by
  have hitems : (∀ x ∈ l.items.zipIdx 1, P (termOf H slot? depth (.index x.2)) ∧
      P (termOf H slot? depth x.1)) ↔ ∀ v ∈ l.items, P (termOf H slot? depth v) := by
    simp only [hindex, true_and]
    rw [← List.forall_mem_map (f := Prod.fst) (P := fun v => P (termOf H slot? depth v)),
      List.zipIdx_map_fst]
  rw [Term.fieldsOf, Listing.pairs]
  simp only [List.forall_mem_append, List.forall_mem_map, hitem, hpair, hitems]

/-- Nothing in a table is too deep if nothing in its entries is. -/
theorem anyTooDeep_fieldsOf_iff {l : Listing} :
    Term.anyTooDeep (Term.fieldsOf (termOf H slot? depth) l) = false ↔
      ∀ e ∈ l.pairs, (termOf H slot? depth e.1).isTooDeep = false ∧
        (termOf H slot? depth e.2).isTooDeep = false :=
  anyTooDeep_iff.trans (forall_fieldsOf_iff (P := fun t => t.isTooDeep = false)
    (fun i => by rw [termOf_index]; rfl) (fun _ => Iff.rfl) fun _ _ => Bool.or_eq_false_iff)

/-- If nothing in a table is too deep, then nothing in its entries is. -/
theorem isTooDeep_of_mem_pairs {l : Listing}
    (h : Term.anyTooDeep (Term.fieldsOf (termOf H slot? depth) l) = false) {e : Entry}
    (he : e ∈ l.pairs) : (termOf H slot? depth e.1).isTooDeep = false ∧
      (termOf H slot? depth e.2).isTooDeep = false :=
  anyTooDeep_fieldsOf_iff.1 h e he

/-- Where nothing is too deep, no more is written out one level deeper. -/
theorem writtenIn_succ (v : Value) (h : (termOf H slot? depth v).isTooDeep = false) :
    writtenIn H slot? (depth + 1) v = writtenIn H slot? depth v := by
  induction depth, v using termOf_induction slot? with
  | atom depth v a hv => rw [writtenIn_atom hv, writtenIn_atom hv]
  | slot depth t i hs => rw [writtenIn_slot hs, writtenIn_slot hs]
  | tooDeep t hs =>
    rw [termOf_zero hs] at h
    cases h
  | table depth t hs ih =>
    rw [termOf_succ hs] at h
    rw [writtenIn_table hs, writtenIn_table hs]
    congr 1
    refine List.flatMap_congr fun e he => ?_
    obtain ⟨hk, hv⟩ := isTooDeep_of_mem_pairs h he
    rw [writtenWith, writtenWith, ih _ hk, ih _ hv]

/-- Where nothing is too deep, the term is the same one level deeper. -/
theorem termOf_succ_eq {v : Value} (h : (termOf H slot? depth v).isTooDeep = false) :
    termOf H slot? (depth + 1) v = termOf H slot? depth v := by
  induction depth, v using termOf_induction slot? with
  | atom depth v a hv => rw [termOf_atom hv, termOf_atom hv]
  | slot depth t i hs => rw [termOf_slot hs, termOf_slot hs]
  | tooDeep t hs =>
    rw [termOf_zero hs] at h
    cases h
  | table depth t hs ih =>
    rw [termOf_succ hs, Term.isTooDeep, anyTooDeep_iff, Term.fieldsOf] at h
    rw [termOf_succ hs, termOf_succ hs, Term.fieldsOf, Term.fieldsOf]
    refine congrArg Term.table (congrArg₂ _ ?_ ?_)
    · refine List.map_congr_left fun v hv => ?_
      rw [ih v (h _ (List.mem_append_left _ (List.mem_map_of_mem hv)))]
    · refine List.map_congr_left fun e he => ?_
      obtain ⟨hk, hv⟩ := Bool.or_eq_false_iff.1
        (h _ (List.mem_append_right _ (List.mem_map_of_mem he)))
      rw [ih _ hk, ih _ hv]

/-- **A term in which nothing is too deep does not depend on the depth.** -/
theorem termOf_of_le {n : Nat} {v : Value} (h : (termOf H slot? depth v).isTooDeep = false)
    (hle : depth ≤ n) : termOf H slot? n v = termOf H slot? depth v := by
  induction hle with
  | refl => rfl
  | step _ ih => rw [termOf_succ_eq (ih ▸ h), ih]

/-! ## Storing entries -/

variable {φ : TableId → TableId} {r : TableId} {m m' : Machine} {pre : List Entry}

/-- After some growth an entry of a table is stored in its copy. -/
theorem store_entry {ts : List TableId} {i : TableId} {e : Entry}
    (hg : Grows H φ (fun _ => []) ts m m') (hi : i < m.heap.size)
    (hentries : (m.heap.table i).entries = copyOf φ pre)
    (hk : e.1.IsKey ∧ e.1.isHandle = false)
    (hnew : e.1.copied φ ∉ pre.map fun e => e.1.copied φ) (hn : Numbers φ m.heap.size ts) :
    ∃ m'', setEntry i (e.1.copied φ) (e.2.copied φ) m' = .ok () m'' ∧
      Grows H φ (addedTo i (copyOf φ [e])) ts m m'' ∧
      (m''.heap.table i).entries = copyOf φ (pre ++ [e]) := by
  have hentries' : (m'.heap.table i).entries = copyOf φ pre := by
    rw [hg.entries i hi, hentries, List.append_nil]
  have hnot : e.1.copied φ ∉ (m'.heap.table i).keys := fun h => by
    rw [Table.keys, hentries'] at h
    exact hnew (mem_keys_copyOf h)
  obtain ⟨m'', hset, hg'⟩ := setEntry_grows (φ := φ) H (v := e.2.copied φ)
    (Nat.lt_of_lt_of_le hi hg.size_le) (hk.1.copied hk.2) hnot
  rw [← copyOf_singleton] at hg'
  have hold (j : TableId) (hj : m.heap.size ≤ j) : addedTo i (copyOf φ [e]) j = [] :=
    addedTo_of_ne (Nat.ne_of_gt (Nat.lt_of_lt_of_le hi hj)) _
  have htotal := hg.trans hg' hn hold
  rw [List.append_nil] at htotal
  refine ⟨m'', hset, htotal, ?_⟩
  rw [htotal.entries i hi, hentries, List.nil_append, addedTo_self, copyOf_append]

/-- An entry and then others are added to a table. -/
theorem Grows.addedTo_cons {ts us : List TableId} {i : TableId} {e : Entry} {es : List Entry}
    {m'' : Machine} (h : Grows H φ (addedTo i (copyOf φ [e])) ts m m')
    (h' : Grows H φ (addedTo i (copyOf φ es)) us m' m'') (hn : Numbers φ m.heap.size ts)
    (hi : i < m.heap.size) : Grows H φ (addedTo i (copyOf φ (e :: es))) (ts ++ us) m m'' := by
  rw [← List.singleton_append, copyOf_append, addedTo_append]
  exact h.trans h' hn fun j hj => addedTo_of_ne (Nat.ne_of_gt (Nat.lt_of_lt_of_le hi hj)) _

/-- The term of the value is evaluated to a copy of it, and makes the tables written out in it. -/
def Evaluates (H : Heap) (slot? : TableId → Option Nat) (φ : TableId → TableId) (r : TableId)
    (depth : Nat) (v : Value) : Prop :=
  ∀ m, Numbers φ m.heap.size (writtenIn H slot? depth v) → Resolves slot? φ r m →
    ∃ m', (termOf H slot? depth v).expr.eval m = .ok (v.copied φ) m' ∧
      Grows H φ (fun _ => []) (writtenIn H slot? depth v) m m'

/-- Two values are evaluated one after the other. -/
theorem Evaluates.both {v w : Value} (hv : Evaluates H slot? φ r depth v)
    (hw : Evaluates H slot? φ r depth w)
    (hn : Numbers φ m.heap.size (writtenIn H slot? depth v ++ writtenIn H slot? depth w))
    (hs : Resolves slot? φ r m) :
    ∃ m₁ m₂, (termOf H slot? depth v).expr.eval m = .ok (v.copied φ) m₁ ∧
      (termOf H slot? depth w).expr.eval m₁ = .ok (w.copied φ) m₂ ∧
      Grows H φ (fun _ => []) (writtenIn H slot? depth v ++ writtenIn H slot? depth w) m m₂ ∧
      Resolves slot? φ r m₁ := by
  obtain ⟨hn₁, hn₂⟩ := Numbers.append.1 hn
  obtain ⟨m₁, heval₁, hg₁⟩ := hv m hn₁ hs
  rw [← hg₁.size] at hn₂
  have hs₁ := hs.grows hg₁ fun _ _ _ => rfl
  obtain ⟨m₂, heval₂, hg₂⟩ := hw m₁ hn₂ hs₁
  exact ⟨m₁, m₂, heval₁, heval₂, hg₁.trans hg₂ hn₁ fun _ _ => rfl, hs₁⟩

theorem notMem_of_nodup {e : Entry} {es : List Entry}
    (h : ((pre ++ e :: es).map fun e => e.1.copied φ).Nodup) :
    e.1.copied φ ∉ pre.map fun e => e.1.copied φ := by
  rw [List.map_append, List.map_cons] at h
  intro hmem
  exact (List.nodup_append.1 h).2.2 _ hmem _ (List.mem_cons_self ..) rfl

/-- An entry that has been evaluated is stored, and others after it. What is run for these has to
work in a machine where the copy of the table holds the entry. -/
theorem store_first {e : Entry} {es : List Entry} {i : TableId} {rest : Run Unit}
    (hg : Grows H φ (fun _ => []) (writtenWith H slot? depth e) m m')
    (hi : i < m.heap.size) (hr : ∀ t j, slot? t = some j → r ≠ i)
    (hentries : (m.heap.table i).entries = copyOf φ pre)
    (hk : e.1.IsKey ∧ e.1.isHandle = false)
    (hnew : e.1.copied φ ∉ pre.map fun e => e.1.copied φ)
    (hn : Numbers φ m.heap.size ((e :: es).flatMap (writtenWith H slot? depth)))
    (hs : Resolves slot? φ r m)
    (hrest : ∀ {m₂ : Machine}, i < m₂.heap.size →
      (m₂.heap.table i).entries = copyOf φ (pre ++ [e]) →
      Numbers φ m₂.heap.size (es.flatMap (writtenWith H slot? depth)) → Resolves slot? φ r m₂ →
      ∃ m₃, rest m₂ = .ok () m₃ ∧
        Grows H φ (addedTo i (copyOf φ es)) (es.flatMap (writtenWith H slot? depth)) m₂ m₃) :
    ∃ m₂ m₃, setEntry i (e.1.copied φ) (e.2.copied φ) m' = .ok () m₂ ∧ rest m₂ = .ok () m₃ ∧
      Grows H φ (addedTo i (copyOf φ (e :: es)))
        ((e :: es).flatMap (writtenWith H slot? depth)) m m₃ := by
  rw [List.flatMap_cons] at hn ⊢
  obtain ⟨hn₁, hn₂⟩ := Numbers.append.1 hn
  obtain ⟨m₂, hset, hg₂, hentries₂⟩ := store_entry hg hi hentries hk hnew hn₁
  obtain ⟨m₃, hrun, hg₃⟩ := hrest (Nat.lt_of_lt_of_le hi hg₂.size_le) hentries₂
    (by rwa [hg₂.size]) (hs.grows hg₂ fun t j ht => addedTo_of_ne (hr t j ht) _)
  exact ⟨m₂, m₃, hset, hrun, hg₂.addedTo_cons hg₃ hn₁ hi⟩

/-- **The parts of a constructor** store copies of the entries, one after the other. -/
theorem fill_parts {p : Nat} {parts : List Part} {es : List Entry}
    (h : Parts H slot? depth p parts es) {i : TableId}
    (heval : ∀ e ∈ es, Evaluates H slot? φ r depth e.1 ∧ Evaluates H slot? φ r depth e.2)
    (hk : ∀ e ∈ es, e.1.IsKey ∧ e.1.isHandle = false)
    (hnodup : ((pre ++ es).map fun e => e.1.copied φ).Nodup) (hi : i < m.heap.size)
    (hr : ∀ t j, slot? t = some j → r ≠ i)
    (hentries : (m.heap.table i).entries = copyOf φ pre)
    (hn : Numbers φ m.heap.size (es.flatMap (writtenWith H slot? depth)))
    (hs : Resolves slot? φ r m) :
    ∃ m', fill i p parts m = .ok () m' ∧
      Grows H φ (addedTo i (copyOf φ es)) (es.flatMap (writtenWith H slot? depth)) m m' := by
  induction h generalizing m pre with
  | nil =>
    refine ⟨m, by unfold fill; rfl, ?_⟩
    rw [show copyOf φ [] = [] from rfl, addedTo_nil]
    exact .refl m
  | @item p v parts es _ ih =>
    obtain ⟨⟨-, hv⟩, heval⟩ := List.forall_mem_cons.1 heval
    obtain ⟨hkey, hk⟩ := List.forall_mem_cons.1 hk
    obtain ⟨m₁, heval₁, hg₁⟩ := hv m (Numbers.append.1 hn).1 hs
    obtain ⟨m₂, m₃, hset, hfill, hg⟩ := store_first hg₁ hi hr hentries hkey
      (notMem_of_nodup hnodup) hn hs (ih heval hk (by simpa using hnodup))
    refine ⟨m₃, ?_, hg⟩
    have hset' : setEntry i (.index (p + 1)) (v.copied φ) m₁ = .ok () m₂ := hset
    unfold fill
    rw [run_bind heval₁, run_bind hset', hfill]
  | @pair p k v parts es _ ih =>
    obtain ⟨⟨hkeyed, hv⟩, heval⟩ := List.forall_mem_cons.1 heval
    obtain ⟨hkey, hk⟩ := List.forall_mem_cons.1 hk
    obtain ⟨m₁, m₁', heval₁, heval₁', hg₁, -⟩ := hkeyed.both hv (Numbers.append.1 hn).1 hs
    obtain ⟨m₂, m₃, hset, hfill, hg⟩ := store_first hg₁ hi hr hentries hkey
      (notMem_of_nodup hnodup) hn hs (ih heval hk (by simpa using hnodup))
    refine ⟨m₃, ?_, hg⟩
    unfold fill
    rw [run_bind heval₁, run_bind heval₁', run_bind hset, hfill]

/-! ## Terms -/

theorem eval_atom {a : Atom} {v : Value} (h : v.view = .inl a) (φ : TableId → TableId)
    (m : Machine) : (Atom.expr a).eval m = .ok (v.copied φ) m := by
  cases v with
  | table t => cases h
  | number n =>
    cases h
    exact eval_spelling m n
  | _ =>
    cases h
    unfold Atom.expr Expr.eval
    rfl

theorem run_lookup {name : String} {v : Value} (h : local? m.scopes name = some v) :
    lookup name m = .ok v m := by
  unfold lookup
  rw [run_bind (show (get : Run Machine) m = .ok m m from rfl), h]
  rfl

/-- A slot is evaluated to the copy of the table that has it. -/
theorem eval_slot {t : TableId} {i : Nat} (hs : Resolves slot? φ r m) (h : slot? t = some i) :
    (Term.slot i).expr.eval m = .ok (.table (φ t)) m := by
  obtain ⟨hlocal, -, hget⟩ := hs t i h
  unfold Term.expr Expr.eval
  have hname : (Expr.name Term.slotTable).eval m = .ok (.table r) m := by
    unfold Expr.eval
    exact run_lookup hlocal
  rw [run_bind hname, run_bind (eval_natural m i), ← hget]
  rfl

theorem evaluates_atom {a : Atom} {v : Value} (h : v.view = .inl a) :
    Evaluates H slot? φ r depth v := by
  intro m _ _
  rw [termOf_atom h, writtenIn_atom h]
  exact ⟨m, eval_atom h φ m, .refl m⟩

theorem evaluates_slot {t : TableId} {i : Nat} (h : slot? t = some i) :
    Evaluates H slot? φ r depth (.table t) := by
  intro m _ hs
  rw [termOf_slot h, writtenIn_slot h]
  exact ⟨m, eval_slot hs h, .refl m⟩

/-- A table that is written out is made, and its entries are stored in it. -/
theorem evaluates_constructor (h : H.WellFormed) {t : TableId} (ht : slot? t = none)
    (heval : ∀ e ∈ H.pairs t, Evaluates H slot? φ r depth e.1 ∧ Evaluates H slot? φ r depth e.2)
    (hnodup : ((H.pairs t).map fun e => e.1.copied φ).Nodup) :
    Evaluates H slot? φ r (depth + 1) (.table t) := by
  intro m hn hs
  rw [termOf_succ ht]
  rw [writtenIn_table ht] at hn ⊢
  obtain ⟨hφ, hn'⟩ := Numbers.cons.1 hn
  generalize hm₁ : { m with heap := (m.heap.add .empty).2 } = m₁
  have hnew : newTable m = .ok (φ t) m₁ := by
    rw [hφ, ← hm₁]
    rfl
  have hsize : m₁.heap.size = m.heap.size + 1 := by
    rw [← hm₁]
    exact Heap.size_add ..
  have hold (i : TableId) : m₁.heap.table i = m.heap.table i := by
    rw [← hm₁]
    exact Heap.table_add_empty ..
  have hempty : (m₁.heap.table (φ t)).entries = copyOf φ [] := by
    rw [hold, Heap.table_of_size_le (Nat.le_of_eq hφ.symm)]
    rfl
  have hs₁ : Resolves slot? φ r m₁ := by
    intro u j hu
    obtain ⟨hlocal, hlt, hget⟩ := hs u j hu
    rw [hold, hsize, ← hm₁]
    exact ⟨hlocal, Nat.lt_succ_of_lt hlt, hget⟩
  have hr (u : TableId) (j : Nat) (hu : slot? u = some j) : r ≠ φ t := by
    rw [hφ]
    exact Nat.ne_of_lt (hs u j hu).2.1
  have hk (e : Entry) (he : e ∈ H.pairs t) : e.1.IsKey ∧ e.1.isHandle = false := by
    obtain ⟨he, hhandle⟩ := (Heap.mem_pairs h).1 he
    exact ⟨(h.tables t).1.isKey_of_mem he, hhandle⟩
  obtain ⟨m₂, hfill, hg⟩ := fill_parts (parts_fieldsOf (H.listing t)) heval hk hnodup
    (by rw [hsize, hφ]; exact Nat.lt_succ_self _) hr hempty (by rw [hsize]; exact hn') hs₁
  refine ⟨m₂, ?_, ?_⟩
  · unfold Term.expr Expr.eval
    rw [run_bind hnew, run_bind hfill]
    rfl
  · refine ⟨?_, fun i hi => ?_, fun u hu => ?_, ?_, ?_⟩
    · rw [hg.size, hsize, List.length_cons, Nat.add_assoc, Nat.add_comm 1]
      rfl
    · rw [hg.entries i (by rw [hsize]; exact Nat.lt_succ_of_lt hi), hold,
        addedTo_of_ne (by rw [hφ]; exact Nat.ne_of_lt hi)]
    · rcases List.mem_cons.1 hu with rfl | hu
      · rw [hg.entries _ (by rw [hsize, hφ]; exact Nat.lt_succ_self _), hempty, addedTo_self]
        rfl
      · exact hg.copies u hu
    · rw [hg.environment, ← hm₁]
    · rw [hg.scopes, ← hm₁]

/-- **The term of a value is evaluated to a copy of it.** -/
theorem eval_term (h : H.WellFormed) {v : Value}
    (hdeep : (termOf H slot? depth v).isTooDeep = false)
    (hnodup : ∀ t ∈ writtenIn H slot? depth v, ((H.pairs t).map fun e => e.1.copied φ).Nodup) :
    Evaluates H slot? φ r depth v := by
  induction depth, v using termOf_induction slot? with
  | atom depth v a hv => exact evaluates_atom hv
  | slot depth t i hs => exact evaluates_slot hs
  | tooDeep t hs =>
    rw [termOf_zero hs] at hdeep
    cases hdeep
  | table depth t hs ih =>
    rw [termOf_succ hs] at hdeep
    rw [writtenIn_table hs] at hnodup
    refine evaluates_constructor h hs (fun e he => ?_) (hnodup t (List.mem_cons_self ..))
    obtain ⟨hk, hv⟩ := isTooDeep_of_mem_pairs hdeep he
    have hmem (u : TableId) (hu : u ∈ writtenWith H slot? depth e) :
        u ∈ t :: (H.pairs t).flatMap (writtenWith H slot? depth) :=
      List.mem_cons_of_mem t (List.mem_flatMap.2 ⟨e, he, hu⟩)
    exact ⟨ih e.1 hk fun u hu => hnodup u (hmem u (List.mem_append_left _ hu)),
      ih e.2 hv fun u hu => hnodup u (hmem u (List.mem_append_right _ hu))⟩

end LuaGraph
