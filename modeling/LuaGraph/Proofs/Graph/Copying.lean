import LuaGraph.Proofs.Graph.Documents
import LuaGraph.Proofs.Graph.Slots
import LuaGraph.Proofs.Graph.Census

/-!
# Running a document makes a copy

The program of a document (`render`) makes a table for every slot and for every table that is
written out, in the order in which the statements are run. If what can be reached has a slot or is
written out, in either case once, then the tables that are made are copies of it.

Result: `exec_statements`.
-/

namespace LuaGraph

open Chunk Run

/-! ## Tables among keys -/

section

variable {φ : TableId → TableId} {v w : Value} {es : List Entry}

/-- Values other than handles are told apart by their copies, if their tables are. -/
theorem copied_inj (hv : v.isHandle = false) (hw : w.isHandle = false)
    (hφ : ∀ t u, v = .table t → w = .table u → φ t = φ u → t = u)
    (h : v.copied φ = w.copied φ) : v = w := by
  cases v with
  | table t =>
    cases w with
    | table u => rw [hφ t u rfl rfl (Value.table.inj h)]
    | function a => cases hw
    | userdata a => cases hw
    | _ => cases h
  | function a => cases hv
  | userdata a => cases hv
  | _ =>
    cases w with
    | function a => cases hw
    | userdata a => cases hw
    | table u => cases h
    | _ => exact h

/-- Copies of keys differ, if those of their tables do. -/
theorem nodup_copied (hn : (es.map Prod.fst).Nodup) (hh : ∀ e ∈ es, e.1.isHandle = false)
    (hφ : ∀ t ∈ Listing.tablesOf es, ∀ u ∈ Listing.tablesOf es, φ t = φ u → t = u) :
    (es.map fun e => e.1.copied φ).Nodup := by
  have hcomp : (es.map fun e => e.1.copied φ) = (es.map Prod.fst).map (Value.copied φ) := by
    rw [List.map_map]
    rfl
  rw [hcomp]
  refine List.Nodup.map_on (fun v hv w hw heq => ?_) hn
  obtain ⟨a, ha, rfl⟩ := List.mem_map.1 hv
  obtain ⟨b, hb, rfl⟩ := List.mem_map.1 hw
  refine copied_inj (hh a ha) (hh b hb) (fun t u ht hu => ?_) heq
  exact hφ t (Listing.mem_tablesOf.2 ⟨a, ha, .inl ht⟩) u (Listing.mem_tablesOf.2 ⟨b, hb, .inl hu⟩)

end

/-! ## The tables that are made -/

section

variable {H : Heap} {slots : List TableId} {depth : Nat} {es : List Entry} {t u : TableId}

theorem entriesFor_cons (t u : TableId) (es : List Entry) (xs : List (TableId × Entry)) :
    entriesFor t (es.map (fun e => (u, e)) ++ xs) =
      (if u = t then es else []) ++ entriesFor t xs := by
  rw [entriesFor_append]
  congr 1
  unfold entriesFor
  by_cases h : u = t
  · have : (es.map fun e => (u, e)).filter (fun x => x.1 == t) = es.map fun e => (u, e) :=
      List.filter_eq_self.2 fun x hx => by
        obtain ⟨e, -, rfl⟩ := List.mem_map.1 hx
        exact beq_iff_eq.2 h
    rw [this, if_pos h, List.map_map]
    exact List.map_id es
  · have : (es.map fun e => (u, e)).filter (fun x => x.1 == t) = [] :=
      List.filter_eq_nil_iff.2 fun x hx => by
        obtain ⟨e, -, rfl⟩ := List.mem_map.1 hx
        exact fun heq => h (beq_iff_eq.1 heq)
    rw [this, if_neg h]
    rfl

theorem entriesFor_of_notMem (h : t ∉ slots) : entriesFor t (slotEntries H slots) = [] := by
  induction slots with
  | nil => rfl
  | cons u slots ih =>
    rw [List.mem_cons, not_or] at h
    rw [slotEntries, List.flatMap_cons, entriesFor_cons, if_neg (Ne.symm h.1), List.nil_append]
    exact ih h.2

/-- The entries that belong to a table in a slot are its own. -/
theorem entriesFor_slotEntries (hn : slots.Nodup) (h : t ∈ slots) :
    entriesFor t (slotEntries H slots) = H.pairs t := by
  induction slots with
  | nil => exact absurd h List.not_mem_nil
  | cons u slots ih =>
    obtain ⟨hu, hn⟩ := List.nodup_cons.1 hn
    rw [slotEntries, List.flatMap_cons, entriesFor_cons]
    rcases List.mem_cons.1 h with rfl | h
    · rw [if_pos rfl]
      have : entriesFor t (slots.flatMap fun t => (H.pairs t).map fun e => (t, e)) = [] :=
        entriesFor_of_notMem hu
      rw [this, List.append_nil]
    · have hne : u ≠ t := fun heq => hu (heq ▸ h)
      rw [if_neg hne, List.nil_append]
      exact ih hn h

/-- The tables that are written out in a document, in the order in which they are made. -/
def made (H : Heap) (slots : List TableId) (depth : Nat) (es : List Entry) : List TableId :=
  writtenFor H (Document.slotIn? slots) depth (slotEntries H slots) ++
    es.flatMap (writtenBy H (Document.slotIn? slots) depth)

theorem perm_writtenBy {slot? : TableId → Option Nat} (es : List Entry) :
    (es.flatMap (writtenBy H slot? depth)).Perm
      ((Listing.tablesOf es).flatMap (written H.children (fun t => (slot? t).isSome) depth)) := by
  rw [flatMap_tablesOf]
  exact List.Perm.flatMap_left es fun e _ => List.perm_append_comm

/-- The tables that are made are those written out in place of the roots and of the children of the
tables in the slots. -/
theorem perm_made (H : Heap) (slots : List TableId) (depth : Nat) (es : List Entry) :
    (made H slots depth es).Perm ((Listing.tablesOf es ++ slots.flatMap H.children).flatMap
      (written H.children (fun t => (Document.slotIn? slots t).isSome) depth)) := by
  have hslots : (writtenFor H (Document.slotIn? slots) depth (slotEntries H slots)).Perm
      ((slots.flatMap H.children).flatMap
        (written H.children (fun t => (Document.slotIn? slots t).isSome) depth)) := by
    rw [writtenFor, slotEntries, List.flatMap_assoc, List.flatMap_assoc]
    refine List.Perm.flatMap_left slots fun t _ => ?_
    rw [List.flatMap_map, Heap.children, Listing.children_eq]
    exact perm_writtenBy (H.pairs t)
  rw [List.flatMap_append]
  exact (hslots.append (perm_writtenBy es)).trans List.perm_append_comm

/-- The table has a slot or is made. -/
def IsMet (H : Heap) (slots : List TableId) (depth : Nat) (es : List Entry) (t : TableId) : Prop :=
  t ∈ slots ∨ t ∈ made H slots depth es

/-- What a document of some bindings needs in order to make a copy of what can be reached. -/
structure Faithful (H : Heap) (slots : List TableId) (depth : Nat) (es : List Entry) : Prop where
  nodup : slots.Nodup
  few : slots.length < 2 ^ 63
  keys : (es.map Prod.fst).Nodup
  isKey : ∀ e ∈ es, e.1.IsKey ∧ e.1.isHandle = false
  fills : ∀ x ∈ slotEntries H slots,
    (termOf H (Document.slotIn? slots) depth x.2.1).isTooDeep = false ∧
      (termOf H (Document.slotIn? slots) depth x.2.2).isTooDeep = false
  bindings : ∀ e ∈ es, (termOf H (Document.slotIn? slots) depth e.1).isTooDeep = false ∧
    (termOf H (Document.slotIn? slots) depth e.2).isTooDeep = false
  /-- No table is made twice, or made besides its slot. -/
  once : (made H slots depth es).Nodup
  apart : ∀ t ∈ made H slots depth es, t ∉ slots
  /-- Whatever can be reached is met. -/
  roots : ∀ t ∈ Listing.tablesOf es, IsMet H slots depth es t
  closed : ∀ t, IsMet H slots depth es t → ∀ u ∈ H.children t, IsMet H slots depth es u

/-! ## The numbers of the copies -/

/-- The number of the copy of a table: the tables in the slots come after `r`, those that are made
later from `base` on. -/
def placeOf (r base : Nat) (slots ts : List TableId) (t : TableId) : TableId :=
  match Document.slotIn? slots t with
  | some i => r + i
  | none => base + ts.idxOf t

variable {r base : Nat} {ts : List TableId}

theorem placeOf_slot {i : Nat} (h : Document.slotIn? slots t = some i) :
    placeOf r base slots ts t = r + i := by
  unfold placeOf
  rw [h]

theorem placeOf_of_notMem (h : t ∉ slots) : placeOf r base slots ts t = base + ts.idxOf t := by
  unfold placeOf
  rw [slotIn?_eq_none.2 h]

/-- The tables that are made have the numbers from `base` on, in order. -/
theorem numbers_placeOf (hn : ts.Nodup) (ha : ∀ t ∈ ts, t ∉ slots) :
    Numbers (placeOf r base slots ts) base ts := by
  refine List.ext_getElem ?_ fun i hi hi' => ?_
  · rw [List.length_map, List.length_range']
  · rw [List.length_map] at hi
    rw [List.getElem_map, placeOf_of_notMem (ha _ (List.getElem_mem hi)), hn.idxOf_getElem,
      List.getElem_range', Nat.one_mul]

/-- **Different tables have different copies.** -/
theorem placeOf_inj (hbase : ∀ i, 1 ≤ i → i ≤ slots.length → r + i < base)
    (ht : t ∈ slots ∨ t ∈ ts)
    (h : placeOf r base slots ts t = placeOf r base slots ts u) : t = u := by
  have hlt (t : TableId) (ht : t ∈ slots) : ∃ i, Document.slotIn? slots t = some i ∧
      placeOf r base slots ts t = r + i ∧ r + i < base := by
    obtain ⟨i, hi⟩ := Option.isSome_iff_exists.1 (isSome_slotIn?.2 ht)
    obtain ⟨hpos, hle⟩ := (slotIn?_eq_some hi).1
    exact ⟨i, hi, placeOf_slot hi, hbase i hpos hle⟩
  by_cases ht' : t ∈ slots <;> by_cases hu' : u ∈ slots
  · obtain ⟨i, hi, hpi, -⟩ := hlt t ht'
    obtain ⟨j, hj, hpj, -⟩ := hlt u hu'
    have hij : r + i = r + j := (hpi.symm.trans h).trans hpj
    obtain rfl : i = j := Nat.add_left_cancel hij
    exact slotIn?_inj hi hj
  · obtain ⟨i, -, hpi, hi⟩ := hlt t ht'
    have hne : r + i = base + ts.idxOf u := (hpi.symm.trans h).trans (placeOf_of_notMem hu')
    omega
  · obtain ⟨i, -, hpi, hi⟩ := hlt u hu'
    have hne : r + i = base + ts.idxOf t := (hpi.symm.trans h.symm).trans (placeOf_of_notMem ht')
    omega
  · rw [placeOf_of_notMem ht', placeOf_of_notMem hu'] at h
    exact (List.idxOf_inj (ht.resolve_left ht')).1 (Nat.add_left_cancel h)

/-! ## The run -/

/-- The tables that are met have copies, each its own, and the environment holds copies of the
entries. -/
structure Copies (H : Heap) (φ : TableId → TableId) (met : TableId → Prop) (es : List Entry)
    (m : Machine) : Prop where
  environment : (m.heap.table m.environment).entries = copyOf φ es
  tables : ∀ t, met t → (m.heap.table (φ t)).entries = copyOf φ (H.pairs t)
  injective : ∀ t u, met t → met u → φ t = φ u → t = u

/-- The tables of a machine are left as they were, but for its environment, and there are copies of
the tables that are met. -/
structure Spares (φ : TableId → TableId) (met : TableId → Prop) (m₀ m : Machine) : Prop where
  size_le : m₀.heap.size ≤ m.heap.size
  entries : ∀ i < m₀.heap.size, i ≠ m₀.environment →
    (m.heap.table i).entries = (m₀.heap.table i).entries
  lt : ∀ t, met t → φ t < m.heap.size

variable {φ : TableId → TableId} {m₀ m₁ : Machine}

theorem Faithful.nodup_pairs (hf : Faithful H slots depth es) (h : H.WellFormed)
    (hinj : ∀ t u, IsMet H slots depth es t → IsMet H slots depth es u → φ t = φ u → t = u)
    (ht : IsMet H slots depth es t) : ((H.pairs t).map fun e => e.1.copied φ).Nodup := by
  have hmet (u : TableId) (hu : u ∈ Listing.tablesOf (H.pairs t)) : IsMet H slots depth es u := by
    refine hf.closed t ht u ?_
    rw [Heap.children, Listing.children_eq]
    exact hu
  exact nodup_copied (Heap.nodup_pairs h t) (fun e he => ((Heap.mem_pairs h).1 he).2)
    fun u hu w hw => hinj u w (hmet u hu) (hmet w hw)

/-- An entry whose terms are written out in a document can be stored. -/
theorem Faithful.storable (hf : Faithful H slots depth es) (h : H.WellFormed)
    (hinj : ∀ t u, IsMet H slots depth es t → IsMet H slots depth es u → φ t = φ u → t = u)
    {e : Entry} (hk : e.1.IsKey ∧ e.1.isHandle = false)
    (hdeep : (termOf H (Document.slotIn? slots) depth e.1).isTooDeep = false ∧
      (termOf H (Document.slotIn? slots) depth e.2).isTooDeep = false)
    (hmade : ∀ t ∈ writtenBy H (Document.slotIn? slots) depth e, t ∈ made H slots depth es)
    (r : TableId) : Storable H (Document.slotIn? slots) φ r depth e where
  key := eval_term h hdeep.1 fun _ ht =>
    hf.nodup_pairs h hinj (.inr (hmade _ (List.mem_append_right _ ht)))
  value := eval_term h hdeep.2 fun _ ht =>
    hf.nodup_pairs h hinj (.inr (hmade _ (List.mem_append_left _ ht)))
  isKey := hk.1
  notHandle := hk.2

/-- The entries of the tables in the slots can be stored by fill statements. -/
theorem Faithful.fillable (hf : Faithful H slots depth es) (h : H.WellFormed)
    (hinj : ∀ t u, IsMet H slots depth es t → IsMet H slots depth es u → φ t = φ u → t = u)
    (r : TableId) : Fillable H (Document.slotIn? slots) φ r depth (slotEntries H slots) where
  storable x hx := by
    obtain ⟨t, -, hx'⟩ := List.mem_flatMap.1 hx
    obtain ⟨e, he, rfl⟩ := List.mem_map.1 hx'
    have hmem := (Heap.mem_pairs h).1 he
    exact hf.storable h hinj
      ⟨(h.tables t).1.isKey_of_mem hmem.1, hmem.2⟩ (hf.fills _ hx)
      (fun u hu => List.mem_append_left _ (List.mem_flatMap.2 ⟨(t, e), hx, hu⟩)) r
  slot x hx := by
    obtain ⟨t, ht, hx'⟩ := List.mem_flatMap.1 hx
    obtain ⟨e, -, rfl⟩ := List.mem_map.1 hx'
    exact isSome_slotIn?.2 ht
  nodup t := by
    by_cases ht : t ∈ slots
    · rw [entriesFor_slotEntries hf.nodup ht]
      exact hf.nodup_pairs h hinj (.inl ht)
    · rw [entriesFor_of_notMem ht]
      exact .nil

/-! ### The copies of the tables in the slots -/

section

variable (hp : Prepared slots.length m₀ m₁)
  (hslot : ∀ t i, Document.slotIn? slots t = some i → φ t = m₀.heap.size + i)
include hp hslot

/-- The tables in the slots come after the table of slots. -/
theorem Prepared.bounds (ht : (Document.slotIn? slots t).isSome = true) :
    m₀.heap.size < φ t ∧ φ t < m₁.heap.size := by
  obtain ⟨i, hi⟩ := Option.isSome_iff_exists.1 ht
  obtain ⟨hpos, hle⟩ := (slotIn?_eq_some hi).1
  rw [hslot t i hi]
  exact ⟨Nat.lt_add_of_pos_right hpos, (hp.slot i hpos hle).1⟩

theorem Prepared.filled : Filled (Document.slotIn? slots) φ m₀.heap.size [] m₁ where
  lt _ ht := (hp.bounds hslot ht).2
  ne _ ht := Nat.ne_of_lt (hp.bounds hslot ht).1
  inj t u ht hu heq := by
    obtain ⟨i, hi⟩ := Option.isSome_iff_exists.1 ht
    obtain ⟨j, hj⟩ := Option.isSome_iff_exists.1 hu
    rw [hslot t i hi, hslot u j hj] at heq
    obtain rfl : i = j := Nat.add_left_cancel heq
    exact slotIn?_inj hi hj
  entries t ht := by
    obtain ⟨i, hi⟩ := Option.isSome_iff_exists.1 ht
    obtain ⟨hpos, hle⟩ := (slotIn?_eq_some hi).1
    rw [hslot t i hi, (hp.slot i hpos hle).2.2]
    rfl

theorem Prepared.resolves : Resolves (Document.slotIn? slots) φ m₀.heap.size m₁ := by
  intro t i hi
  obtain ⟨hpos, hle⟩ := (slotIn?_eq_some hi).1
  obtain ⟨hlt, hget, -⟩ := hp.slot i hpos hle
  refine ⟨hp.slotTable (Nat.lt_of_lt_of_le hpos hle), ?_, ?_⟩
  · exact Nat.lt_of_le_of_lt (Nat.le_add_right ..) hlt
  · rw [hget, hslot t i hi]

/-- The tables of old are none of those in slots, and get no entries from fill statements. -/
theorem Prepared.addedFor_old {i : TableId} (hi : i < m₀.heap.size) :
    addedFor φ (slotEntries H slots) i = [] :=
  addedFor_eq_nil fun x hx heq => by
    obtain ⟨t, ht, hx⟩ := List.mem_flatMap.1 hx
    obtain ⟨e, -, rfl⟩ := List.mem_map.1 hx
    have hlt := (hp.bounds hslot (isSome_slotIn?.2 ht)).1
    exact absurd heq (Nat.ne_of_lt (Nat.lt_trans hi hlt))

section

variable {m₂ m₃ : Machine} {ts us : List TableId} {bound : List Entry}

/-- Filling the slots and binding values afterwards leaves all other tables as they were. -/
theorem Prepared.spares (hn : Numbers φ m₁.heap.size (ts ++ us))
    (hg₂ : Grows H φ (addedFor φ (slotEntries H slots)) ts m₁ m₂)
    (hg₃ : Grows H φ (addedTo m₂.environment bound) us m₂ m₃) :
    Spares φ (fun t => t ∈ slots ∨ t ∈ ts ++ us) m₀ m₃ where
  size_le := Nat.le_trans hp.size_le (Nat.le_trans hg₂.size_le hg₃.size_le)
  entries i hi hne := by
    have hi₁ := Nat.lt_of_lt_of_le hi hp.size_le
    rw [hg₃.entries i (Nat.lt_of_lt_of_le hi₁ hg₂.size_le), hg₂.entries i hi₁,
      hp.addedFor_old hslot hi, addedTo_of_ne, List.append_nil, List.append_nil, hp.old i hi]
    rw [hg₂.environment, hp.environment]
    exact hne
  lt t ht := by
    have hsize : m₃.heap.size = m₁.heap.size + (ts ++ us).length := by
      rw [hg₃.size, hg₂.size, List.length_append, Nat.add_assoc]
    rcases ht with ht | ht
    · have hlt := (hp.bounds hslot (isSome_slotIn?.2 ht)).2
      exact Nat.lt_of_lt_of_le hlt (hsize ▸ Nat.le_add_right ..)
    · exact hsize ▸ (hn.bounds ht).2

/-- Filling the slots leaves the environment without entries. -/
theorem Prepared.entries_environment (henv : m₀.environment < m₀.heap.size)
    (hempty : (m₀.heap.table m₀.environment).entries = [])
    (hg₂ : Grows H φ (addedFor φ (slotEntries H slots)) ts m₁ m₂) :
    (m₂.heap.table m₂.environment).entries = [] := by
  rw [hg₂.environment, hp.environment, hg₂.entries _ (Nat.lt_of_lt_of_le henv hp.size_le),
    hp.addedFor_old hslot henv, List.append_nil, hp.old _ henv, hempty]

/-- Once the slots are filled and values bound, the tables in the slots have their copies, and so
have those that were written out. -/
theorem Prepared.entries_copied (hnodup : slots.Nodup) (henv : m₀.environment < m₀.heap.size)
    (hn : Numbers φ m₁.heap.size ts)
    (hfilled : Filled (Document.slotIn? slots) φ m₀.heap.size (slotEntries H slots) m₂)
    (hg₂ : Grows H φ (addedFor φ (slotEntries H slots)) ts m₁ m₂)
    (hg₃ : Grows H φ (addedTo m₂.environment bound) us m₂ m₃) (ht : t ∈ slots ∨ t ∈ ts ++ us) :
    (m₃.heap.table (φ t)).entries = copyOf φ (H.pairs t) := by
  have henv₂ : m₂.environment = m₀.environment := hg₂.environment.trans hp.environment
  by_cases hslots : t ∈ slots
  · have hsome := isSome_slotIn?.2 hslots
    have hne : φ t ≠ m₂.environment :=
      henv₂ ▸ Nat.ne_of_gt (Nat.lt_trans henv (hp.bounds hslot hsome).1)
    rw [hg₃.entries _ (hfilled.lt t hsome), hfilled.entries t hsome,
      entriesFor_slotEntries hnodup hslots, addedTo_of_ne hne, List.append_nil]
  · rcases List.mem_append.1 (ht.resolve_left hslots) with ht | ht
    · obtain ⟨hge, hlt⟩ := hn.bounds ht
      have hne : φ t ≠ m₂.environment :=
        henv₂ ▸ Nat.ne_of_gt (Nat.lt_of_lt_of_le (Nat.lt_of_lt_of_le henv hp.size_le) hge)
      rw [hg₃.entries _ (by rw [hg₂.size]; exact hlt), hg₂.copies t ht, addedTo_of_ne hne,
        List.append_nil]
    · exact hg₃.copies t ht

end

end

/-- **Running the statements of a document makes a copy**, once its slots are ready. -/
theorem exec_statements (h : H.WellFormed) (hf : Faithful H slots depth es) (split : Bool)
    {xss : List (List (TableId × Entry))} (hxss : xss.flatten = slotEntries H slots)
    (hp : Prepared slots.length m₀ m₁) (henv : m₀.environment < m₀.heap.size)
    (hempty : (m₀.heap.table m₀.environment).entries = []) :
    ∃ φ m', execAll ((xss.flatMap fun xs =>
        Document.blockStats split (xs.map (fillFor H (Document.slotIn? slots) depth))) ++
        es.map fun e => (bindingOf H (Document.slotIn? slots) depth e).stat slots.length) m₁ =
          .ok () m' ∧
      m'.environment = m₀.environment ∧ Copies H φ (IsMet H slots depth es) es m' ∧
      Spares φ (IsMet H slots depth es) m₀ m' := by
  generalize hφ : placeOf m₀.heap.size m₁.heap.size slots (made H slots depth es) = φ
  have hslot (t : TableId) (i : Nat) (ht : Document.slotIn? slots t = some i) :
      φ t = m₀.heap.size + i := by
    rw [← hφ]
    exact placeOf_slot ht
  have hinj (t u : TableId) (ht : IsMet H slots depth es t) (_ : IsMet H slots depth es u)
      (heq : φ t = φ u) : t = u := by
    rw [← hφ] at heq
    exact placeOf_inj (fun i hi hin => (hp.slot i hi hin).1) ht heq
  have hnumbers : Numbers φ m₁.heap.size (made H slots depth es) := by
    rw [← hφ]
    exact numbers_placeOf hf.once hf.apart
  obtain ⟨hn₁, hn₂⟩ := Numbers.append.1 hnumbers
  have hfillable := hf.fillable h hinj m₀.heap.size
  -- first the fill statements
  have hfill : Fillable H (Document.slotIn? slots) φ m₀.heap.size depth ([] ++ xss.flatten) := by
    rw [hxss]
    exact hfillable
  obtain ⟨m₂, hexec₂, hg₂, hfilled₂⟩ := exec_blocks split hfill (hp.filled hslot)
    (by rw [hxss]; exact hn₁) (hp.resolves hslot)
  rw [hxss] at hg₂ hfilled₂
  have henv₂ : m₂.environment = m₀.environment := hg₂.environment.trans hp.environment
  have hlt₂ : m₂.environment < m₂.heap.size := by
    rw [henv₂]
    exact Nat.lt_of_lt_of_le henv (Nat.le_trans hp.size_le hg₂.size_le)
  have hentries₂ := hp.entries_environment hslot henv hempty hg₂
  -- then the bindings
  have hstorable (e : Entry) (he : e ∈ es) :
      Storable H (Document.slotIn? slots) φ m₀.heap.size depth e :=
    hf.storable h hinj (hf.isKey e he) (hf.bindings e he)
      (fun u hu => List.mem_append_right _ (List.mem_flatMap.2 ⟨e, he, hu⟩)) _
  have hnodup : ((([] : List Entry) ++ es).map fun e => e.1.copied φ).Nodup :=
    nodup_copied hf.keys (fun e he => (hf.isKey e he).2)
      fun t ht u hu => hinj t u (hf.roots t ht) (hf.roots u hu)
  have honly : OnlySlots slots.length m₂ := fun name hname => by
    rw [hg₂.scopes]
    exact hp.only name hname
  obtain ⟨m₃, hexec₃, hg₃⟩ := exec_bindings hstorable hnodup hlt₂
    (fun _ _ _ => henv₂ ▸ (Nat.ne_of_lt henv).symm) hentries₂ (by rw [hg₂.size]; exact hn₂)
    ((hp.resolves hslot).grows hg₂ fun _ _ _ => (hp.filled hslot).added_ne hfillable.slot) honly
  refine ⟨φ, m₃, (execAll_append hexec₂).trans hexec₃, hg₃.environment.trans henv₂,
    ⟨?_, fun t ht => ?_, hinj⟩, hp.spares hslot hnumbers hg₂ hg₃⟩
  · rw [hg₃.environment, hg₃.entries _ hlt₂, hentries₂, addedTo_self, List.nil_append]
  · exact hp.entries_copied hslot hf.nodup henv hn₁ hfilled₂ hg₂ hg₃ ht

end

end LuaGraph
