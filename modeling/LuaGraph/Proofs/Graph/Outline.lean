import LuaGraph.Proofs.Graph.Documents
import LuaGraph.Proofs.Graph.Order

/-!
# Outlines

The outline of a value is what can be told of it without the numbers of tables and the identities of
handles: a table has another number in it, and a handle its kind and its label only. Where the
entries of two tables have the same outlines in some order, and the tables among their keys are told
apart by the same signatures, they are written in the same order, so their listings have the same
outlines part by part.

Results: **`outline_ofTable`**, and `children_eq_map` for the tables in such listings.
-/

namespace LuaGraph

/-! ## Values -/

/-- The value with another number for a table, and with the label of a handle only. -/
def Value.outline (φ : TableId → TableId) : Value → Value
  | table t => table (φ t)
  | function h => function ⟨0, h.label⟩
  | userdata h => userdata ⟨0, h.label⟩
  | v => v

/-- An entry with the outlines of its key and its value. -/
def Entry.outline (φ : TableId → TableId) (e : Entry) : Entry := (e.1.outline φ, e.2.outline φ)

section

variable {φ : TableId → TableId} {v k : Value}

namespace Value

/-- A value that is neither a table nor a handle. -/
def IsScalar (v : Value) : Prop := v.isTable = false ∧ v.isHandle = false

theorem isScalar_index (n : Nat) : (index n).IsScalar := ⟨rfl, rfl⟩

theorem IsScalar.outline_eq (h : v.IsScalar) (φ : TableId → TableId) : v.outline φ = v := by
  cases v with
  | table t => cases h.1
  | function f => cases h.2
  | userdata f => cases h.2
  | _ => rfl

/-- A scalar is the outline of itself only. -/
theorem IsScalar.outline_eq_iff (h : k.IsScalar) : v.outline φ = k ↔ v = k := by
  constructor
  · rintro rfl
    cases v with
    | table t => cases h.1
    | function f => cases h.2
    | userdata f => cases h.2
    | _ => rfl
  · rintro rfl
    exact h.outline_eq φ

theorem view_outline (φ : TableId → TableId) (v : Value) :
    (v.outline φ).view = v.view.map id φ := by
  cases v <;> rfl

/-- Values with the same outline have the same text, if they are not tables. -/
theorem view_eq {w : Value} (h : v.outline φ = w.outline id) : w.view = v.view.map id φ := by
  rw [← view_outline, h, view_outline, Sum.map_id_id]
  rfl

theorem table?_outline (φ : TableId → TableId) (v : Value) :
    (v.outline φ).table? = v.table?.map φ := by
  cases v <;> rfl

theorem isTable_outline (φ : TableId → TableId) (v : Value) :
    (v.outline φ).isTable = v.isTable := by
  cases v <;> rfl

/-- What a key is sorted by shows in its outline, where tables keep their signatures. -/
theorem ofValue_outline {text text' : TableId → String} (h : ∀ t ∈ v.table?, text' (φ t) = text t) :
    OrderKey.ofValue text' (v.outline φ) = OrderKey.ofValue text v := by
  cases v with
  | table t => exact congrArg (OrderKey.other .table) (h t rfl)
  | _ => rfl

theorem place?_outline (φ : TableId → TableId) (v : Value) : (v.outline φ).place? = v.place? := by
  cases v <;> rfl

end Value

/-- The tables in the outlines of entries are those in the entries, renumbered. -/
theorem Listing.tablesOf_outline (φ : TableId → TableId) (es : List Entry) :
    tablesOf (es.map (Entry.outline φ)) = (tablesOf es).map φ := by
  unfold tablesOf
  rw [List.flatMap_map, List.map_flatMap]
  refine List.flatMap_congr fun e _ => ?_
  show [e.1.outline φ, e.2.outline φ].filterMap Value.table? = _
  simp only [List.filterMap_cons, List.filterMap_nil, Value.table?_outline]
  cases e.1.table? <;> cases e.2.table? <;> rfl

/-- What follows from outlines for elements follows for lists. -/
theorem map_eq_map_of_outline {α β γ : Type} {f f' : α → β} {g g' : α → γ} {xs ys : List α}
    (h : xs.map f = ys.map f') (hg : ∀ x ∈ xs, ∀ y ∈ ys, f x = f' y → g x = g' y) :
    xs.map g = ys.map g' := by
  induction xs generalizing ys with
  | nil =>
    obtain rfl : ys = [] := List.map_eq_nil_iff.1 h.symm
    rfl
  | cons x xs ih =>
    cases ys with
    | nil => cases h
    | cons y ys =>
      obtain ⟨hxy, hrest⟩ := List.cons.inj h
      rw [List.map_cons, List.map_cons,
        hg x (List.mem_cons_self ..) y (List.mem_cons_self ..) hxy,
        ih hrest fun x hx y hy => hg x (List.mem_cons_of_mem _ hx) y (List.mem_cons_of_mem _ hy)]

end

/-! ## Tables -/

/-- The entries have the same outlines, in some order. -/
def SameOutlines (φ : TableId → TableId) (es es' : List Entry) : Prop :=
  (es.map (Entry.outline φ)).Perm (es'.map (Entry.outline id))

section

variable {φ : TableId → TableId} {es es' : List Entry} {t t' : Table}

theorem SameOutlines.filter (h : SameOutlines φ es es') {p q : Entry → Bool}
    (hp : ∀ e, q (e.outline φ) = p e) (hq : ∀ e, q (e.outline id) = q e) :
    SameOutlines φ (es.filter p) (es'.filter q) := by
  have hfilter := List.Perm.filter q h
  rw [List.filter_map, List.filter_map] at hfilter
  have hleft : q ∘ Entry.outline φ = p := funext hp
  have hright : q ∘ Entry.outline id = q := funext hq
  rwa [hleft, hright] at hfilter

/-- The same scalars are keys. -/
theorem SameOutlines.mem_keys_iff (h : SameOutlines φ es es') {k : Value} (hk : k.IsScalar) :
    k ∈ es.map Prod.fst ↔ k ∈ es'.map Prod.fst := by
  have houtline (φ : TableId → TableId) (es : List Entry) :
      k ∈ (es.map (Entry.outline φ)).map Prod.fst ↔ k ∈ es.map Prod.fst := by
    rw [List.map_map, List.mem_map, List.mem_map]
    refine exists_congr fun e => and_congr_right fun _ => ?_
    exact hk.outline_eq_iff
  rw [← houtline φ es, ← houtline id es']
  exact (h.map Prod.fst).mem_iff

/-- An entry with a scalar key has a counterpart with that key. -/
theorem SameOutlines.exists_mem (h : SameOutlines φ es es') {e : Entry} (he : e ∈ es)
    (hk : e.1.IsScalar) : ∃ e' ∈ es', e'.1 = e.1 ∧ e.2.outline φ = e'.2.outline id := by
  obtain ⟨e', he', heq⟩ := List.mem_map.1 (h.mem_iff.1 (List.mem_map_of_mem he))
  obtain ⟨hkey, hvalue⟩ := Prod.mk.inj heq
  rw [hk.outline_eq] at hkey
  exact ⟨e', he', hk.outline_eq_iff.1 hkey, hvalue.symm⟩

namespace Listing

variable (ht : t.WellFormed) (ht' : t'.WellFormed)
  (h : SameOutlines φ (t.entries.filter fun e => !e.1.isHandle)
    (t'.entries.filter fun e => !e.1.isHandle))
include ht ht' h

/-- The runs are equally long, since the same places are there. -/
theorem run_eq : t.run = t'.run := by
  have hplace (t : Table) (i : Nat) : .index i ∈ t.keys ↔
      .index i ∈ (t.entries.filter fun e => !e.1.isHandle).map Prod.fst := by
    constructor
    · intro hi
      obtain ⟨e, he, hkey⟩ := List.mem_map.1 hi
      refine List.mem_map.2 ⟨e, List.mem_filter.2 ⟨he, ?_⟩, hkey⟩
      rw [hkey]
      rfl
    · intro hi
      obtain ⟨e, he, hkey⟩ := List.mem_map.1 hi
      exact List.mem_map.2 ⟨e, List.mem_of_mem_filter he, hkey⟩
  have hle (n : Nat) : n ≤ t.run ↔ n ≤ t'.run := by
    rw [ht.le_run_iff, ht'.le_run_iff]
    refine forall_congr' fun i => ?_
    rw [hplace t, hplace t', h.mem_keys_iff (Value.isScalar_index i)]
  exact Nat.le_antisymm ((hle _).1 (Nat.le_refl _)) ((hle _).2 (Nat.le_refl _))

/-- The values of the run have the same outlines. -/
theorem outline_get {i : Nat} (hi : i < t.run) :
    (t.get (.index (i + 1))).outline φ = (t'.get (.index (i + 1))).outline id := by
  obtain ⟨e, he, hkey⟩ := List.mem_map.1 (ht.present (i + 1) (by omega) hi)
  have hs : e.1.IsScalar := hkey ▸ Value.isScalar_index (i + 1)
  obtain ⟨e', he', hkey', hvalue⟩ := h.exists_mem
    (List.mem_filter.2 ⟨he, by rw [hs.2]; rfl⟩) hs
  rw [← hkey, ht.get_of_mem he, ← hkey', ht'.get_of_mem (List.mem_of_mem_filter he'), hvalue]

end Listing

end

/-! ## Listings -/

namespace Listing

variable {φ : TableId → TableId} {t t' : Table} {l l' : Listing}

/-- A listing with the outlines of its parts. -/
def outline (φ : TableId → TableId) (l : Listing) : Listing where
  items := l.items.map (Value.outline φ)
  fields := l.fields.map (Entry.outline φ)

/-- The same outlines of entries have the same keys to be sorted by. -/
theorem perm_keyed {es es' : List Entry} {text text' : TableId → String}
    (h : SameOutlines φ es es') (htext : ∀ e ∈ es, ∀ u ∈ e.1.table?, text' (φ u) = text u) :
    (es.map fun e => (OrderKey.ofValue text e.1, e.outline φ)).Perm
      (es'.map fun e => (OrderKey.ofValue text' e.1, e.outline id)) := by
  have hperm := List.Perm.map (fun e : Entry => (OrderKey.ofValue text' e.1, e)) h
  rw [List.map_map, List.map_map] at hperm
  have hleft : es.map ((fun e : Entry => (OrderKey.ofValue text' e.1, e)) ∘ Entry.outline φ) =
      es.map fun e => (OrderKey.ofValue text e.1, e.outline φ) :=
    List.map_congr_left fun e he => congrArg (·, e.outline φ) (Value.ofValue_outline (htext e he))
  have hright : (fun e : Entry => (OrderKey.ofValue text' e.1, e)) ∘ Entry.outline id =
      fun e => (OrderKey.ofValue text' e.1, e.outline id) :=
    funext fun e => congrArg (·, e.outline id) (Value.ofValue_outline fun _ _ => rfl)
  rwa [hleft, hright] at hperm

variable {sign sign' : TableId → Option String}

/-- **Tables with the same outlines have the same listings**, up to these outlines, if signatures
are the same and tell their table keys apart. -/
theorem outline_ofTable (ht : t.WellFormed) (ht' : t'.WellFormed)
    (h : SameOutlines φ (t.entries.filter fun e => !e.1.isHandle)
      (t'.entries.filter fun e => !e.1.isHandle))
    (ha : Apart (known sign) t.entries)
    (htext : ∀ e ∈ t.entries, ∀ u ∈ e.1.table?, known sign' (φ u) = known sign u)
    (hl : ofTable sign t = some l) (hl' : ofTable sign' t' = some l') :
    l.outline φ = l'.outline id := by
  have hrun := run_eq ht ht' h
  have hfields : SameOutlines φ
      ((t.entries.filter fun e => !inRun t e.1).filter fun e => !e.1.isHandle)
      ((t'.entries.filter fun e => !inRun t' e.1).filter fun e => !e.1.isHandle) := by
    have hfilter := h.filter (p := fun e => !inRun t e.1) (q := fun e => !inRun t' e.1)
      (fun e => by simp [inRun, Entry.outline, Value.place?_outline, hrun])
      (fun e => by simp [inRun, Entry.outline, Value.place?_outline])
    rw [List.filter_filter, List.filter_filter] at hfilter ⊢
    simp only [Bool.and_comm] at hfilter ⊢
    exact hfilter
  obtain ⟨hitems, hsorted⟩ := ofTable_eq_some hl
  obtain ⟨hitems', hsorted'⟩ := ofTable_eq_some hl'
  unfold outline
  rw [hitems, hitems']
  congr 1
  · rw [List.map_map, List.map_map, ← hrun]
    refine List.map_congr_left fun i hi => ?_
    exact outline_get ht ht' h (List.mem_range.1 hi)
  · have hmem {e : Entry} (he : e ∈ t.entries.filter fun e => !inRun t e.1) : e ∈ t.entries :=
      List.mem_of_mem_filter he
    exact map_eq_of_apart (ht.distinct.filter _) (ht'.distinct.filter _)
      (fun e he e' he' => ha e (hmem he) e' (hmem he')) hsorted hsorted'
      (perm_keyed hfields fun e he => htext e (hmem (List.mem_of_mem_filter he)))

theorem pairs_outline (φ : TableId → TableId) (l : Listing) :
    (l.outline φ).pairs = l.pairs.map (Entry.outline φ) := by
  unfold pairs outline
  rw [List.map_append, List.map_map, List.zipIdx_map, List.map_map]
  rfl

theorem children_outline (φ : TableId → TableId) (l : Listing) :
    Census.children (l.outline φ) = (Census.children l).map φ := by
  rw [children_eq, children_eq, pairs_outline, tablesOf_outline]

/-- The children in listings with the same outlines correspond. -/
theorem children_eq_map (h : l.outline φ = l'.outline id) :
    Census.children l' = (Census.children l).map φ := by
  have hchildren := congrArg Census.children h
  rw [children_outline, children_outline, List.map_id] at hchildren
  exact hchildren.symm

theorem pairs_eq (h : l.outline φ = l'.outline id) :
    l.pairs.map (Entry.outline φ) = l'.pairs.map (Entry.outline id) := by
  rw [← pairs_outline, ← pairs_outline, h]

end Listing

end LuaGraph
