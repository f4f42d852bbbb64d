import LuaGraph.Save
import LuaGraph.Proofs.Graph.Copying

/-!
# The document of saved bindings

The entries to be written (`collect_bindings`) have different keys, and a table without a slot is
met once at most, so nothing is made twice. In the tree form the tables that are met more than once
have slots; in the other forms all tables have.

Results: `mem_entriesOf`, and `faithful` for a document in which nothing is too deep.
-/

namespace LuaGraph

/-! ## The entries to be written -/

section

variable {H : Heap} {bindings : TableId} {required : Option TableId} {e : Entry}

theorem Save.entriesOf?_eq (H : Heap) (bindings : TableId) (required : Option TableId) :
    Save.entriesOf? H bindings required =
      H.sortEntries? ((H.table bindings).entries ++ Save.missing H bindings required) := by
  cases required <;> rfl

theorem perm_entriesOf (H : Heap) (bindings : TableId) (required : Option TableId) :
    (Save.entriesOf H bindings required).Perm
      (((H.table bindings).entries ++ Save.missing H bindings required).filter
        fun e => !e.1.isHandle) := by
  unfold Save.entriesOf
  cases h : Save.entriesOf? H bindings required with
  | none => exact .refl _
  | some es =>
    exact Listing.perm_sortEntries ((Save.entriesOf?_eq H bindings required).symm.trans h)

theorem mem_missing : e ∈ Save.missing H bindings required ↔ e.2 = .nil ∧
    ∃ r ∈ required, e.1 ∈ (H.table r).keys ∧ (H.table bindings).contains e.1 = false := by
  cases required with
  | none => simp [Save.missing]
  | some r =>
    have hiff : e ∈ Save.missing H bindings (some r) ↔
        ∃ k, (k ∈ (H.table r).keys ∧ (H.table bindings).contains k = false) ∧
          ((k, .nil) : Entry) = e := by
      simp [Save.missing]
    rw [hiff]
    constructor
    · rintro ⟨k, hk, rfl⟩
      exact ⟨rfl, r, rfl, hk⟩
    · rintro ⟨hv, r', hr, hk⟩
      cases Option.mem_some.1 hr
      exact ⟨e.1, hk, by rw [← hv]⟩

theorem mem_entriesOf : e ∈ Save.entriesOf H bindings required ↔
    (e ∈ (H.table bindings).entries ∨ e ∈ Save.missing H bindings required) ∧
      e.1.isHandle = false := by
  rw [(perm_entriesOf H bindings required).mem_iff, List.mem_filter, List.mem_append,
    Bool.not_eq_true']

variable (h : H.WellFormed)
include h

/-- A required key without a binding is none of the keys of the bindings. -/
theorem notMem_keys_of_missing (he : e ∈ Save.missing H bindings required) :
    e.1.IsKey ∧ e.1 ∉ (H.table bindings).keys := by
  obtain ⟨-, r, -, hk, hc⟩ := mem_missing.1 he
  have hkey := (h.tables r).1.isKey e.1 hk
  rw [Table.contains_eq hkey] at hc
  exact ⟨hkey, of_decide_eq_false hc⟩

theorem isKey_of_mem_bound
    (he : e ∈ (H.table bindings).entries ++ Save.missing H bindings required) : e.1.IsKey := by
  rcases List.mem_append.1 he with he | he
  · exact (h.tables bindings).1.isKey_of_mem he
  · exact (notMem_keys_of_missing h he).1

theorem isKey_of_mem_entriesOf (he : e ∈ Save.entriesOf H bindings required) :
    e.1.IsKey ∧ e.1.isHandle = false := by
  obtain ⟨hmem, hh⟩ := mem_entriesOf.1 he
  exact ⟨isKey_of_mem_bound h (List.mem_append.2 hmem), hh⟩

theorem nodup_missing (bindings : TableId) (required : Option TableId) :
    ((Save.missing H bindings required).map Prod.fst).Nodup := by
  cases required with
  | none => exact .nil
  | some r =>
    have hkeys : (Save.missing H bindings (some r)).map Prod.fst =
        (H.table r).keys.filter fun k => !(H.table bindings).contains k := by
      rw [Save.missing, List.map_map]
      exact List.map_id _
    rw [hkeys]
    exact (h.tables r).1.nodup.filter _

/-- No key is both among the bindings and missing. -/
theorem nodup_keys (bindings : TableId) (required : Option TableId) :
    (((H.table bindings).entries ++ Save.missing H bindings required).map Prod.fst).Nodup := by
  rw [List.map_append]
  refine List.nodup_append.2 ⟨(h.tables bindings).1.nodup, nodup_missing h bindings required, ?_⟩
  rintro k hk l hl rfl
  obtain ⟨e, he, rfl⟩ := List.mem_map.1 hl
  exact (notMem_keys_of_missing h he).2 hk

/-- **The keys to be written differ.** -/
theorem nodup_entriesOf (bindings : TableId) (required : Option TableId) :
    ((Save.entriesOf H bindings required).map Prod.fst).Nodup := by
  rw [((perm_entriesOf H bindings required).map Prod.fst).nodup_iff]
  exact (nodup_keys h bindings required).sublist (List.filter_sublist.map _)

/-- The values to be written are in the heap. -/
theorem inHeap_of_mem_entriesOf (he : e ∈ Save.entriesOf H bindings required) :
    e.1.InHeap H ∧ e.2.InHeap H := by
  rcases (mem_entriesOf.1 he).1 with hmem | hmem
  · exact h.closed bindings e hmem
  · obtain ⟨hv, r, -, hk, -⟩ := mem_missing.1 hmem
    obtain ⟨e', he', hkey⟩ := List.mem_map.1 hk
    rw [hv, ← hkey]
    exact ⟨(h.closed r e' he').1, fun t ht => by cases ht⟩

end

/-! ## The census of some entries -/

section

variable {H : Heap} {es : List Entry} {form : Form} {t : TableId}

theorem filterMap_values (es : List Entry) :
    (es.flatMap fun e => [e.1, e.2]).filterMap Value.table? = Listing.tablesOf es :=
  List.filterMap_flatMap

namespace Census

theorem Sound.length_le {n : Nat} {c : Census} (h : Sound n c) : c.all.length ≤ n := by
  have hsub : c.all ⊆ List.range n := fun t ht => List.mem_range.2 (h.lt t ht)
  have := (List.subperm_of_subset h.nodup hsub).length_le
  rwa [List.length_range] at this

/-- What was not found was not counted. -/
theorem Sound.count_eq_zero {n : Nat} {c : Census} (h : Sound n c) (ht : t ∉ c.all) :
    c.count t = 0 := by
  by_cases hlt : t < n
  · exact Nat.eq_zero_of_not_pos fun hpos => ht ((h.pos t hlt).1 hpos)
  · have hle : c.counts.size ≤ t := by
      rw [h.size]
      exact Nat.le_of_not_lt hlt
    simp [count, hle]

end Census

theorem inHeap_values (hin : ∀ e ∈ es, e.1.InHeap H ∧ e.2.InHeap H) :
    ∀ v ∈ es.flatMap fun e => [e.1, e.2], v.InHeap H := by
  intro v hv
  obtain ⟨e, he, hv⟩ := List.mem_flatMap.1 hv
  rcases List.mem_cons.1 hv with rfl | hv
  · exact (hin e he).1
  · rw [List.mem_singleton.1 hv]
    exact (hin e he).2

/-- The tables in the slots and the others among those found. -/
theorem perm_slotted (form : Form) {c : Census} (hn : c.all.Nodup) :
    (Document.slotted form c ++
      unslotted (fun t => (Document.slotIn? (Document.slotted form c) t).isSome) c.all).Perm
        c.all := by
  have hslotted : (Document.slotted form c).Perm
      (c.all.filter fun t => (Document.slotIn? (Document.slotted form c) t).isSome) := by
    refine (List.perm_ext_iff_of_nodup (nodup_slotted form hn) (hn.filter _)).2 fun t => ?_
    rw [List.mem_filter, isSome_slotIn?]
    exact ⟨fun ht => ⟨mem_all_of_mem_slotted ht, ht⟩, And.right⟩
  exact (hslotted.append_right _).trans (List.filter_append_perm _ c.all)

namespace Census

variable {vs : List Value} (h : H.WellFormed) (hvs : ∀ v ∈ vs, v.InHeap H)
include h hvs

/-- A table without a slot is met once at most. -/
theorem count_le_one (ht : t ∉ Document.slotted form (ofValues H vs)) :
    (ofValues H vs).count t ≤ 1 := by
  have hsound := sound_ofValues h hvs
  have hzero (hall : t ∉ (ofValues H vs).all) : (ofValues H vs).count t ≤ 1 := by
    rw [hsound.count_eq_zero hall]
    exact Nat.zero_le 1
  cases form with
  | tree =>
    by_cases hall : t ∈ (ofValues H vs).all
    · refine Nat.le_of_not_lt fun hlt => ht (List.mem_filter.2 ⟨hall, ?_⟩)
      exact decide_eq_true hlt
    · exact hzero hall
  | reference => exact hzero ht
  | split => exact hzero ht

/-- What is not in a slot stands once at most where a table can be written out. -/
theorem count_unslotted (ht : t ∉ Document.slotted form (ofValues H vs)) :
    let slots := Document.slotted form (ofValues H vs)
    (vs.filterMap Value.table? ++ slots.flatMap H.children).count t +
      ((unslotted (fun t => (Document.slotIn? slots t).isSome)
        (ofValues H vs).all).flatMap H.children).count t ≤ 1 := by
  have hcount := count_eq h hvs t
  have hperm := (perm_slotted form (sound_ofValues h hvs).nodup).flatMap_right H.children
  rw [List.flatMap_append] at hperm
  have hle := count_le_one h hvs ht
  dsimp only
  rw [List.count_append, Nat.add_assoc, ← List.count_append, hperm.count_eq]
  exact hcount ▸ hle

end Census

/-! ## What is written out -/

/-- What is written of some values: themselves, and what the tables in the slots hold. -/
def writtenValues (H : Heap) (slots : List TableId) (vs : List Value) : List Value :=
  vs ++ slots.flatMap fun t => (H.pairs t).flatMap fun e => [e.1, e.2]

theorem filterMap_writtenValues (slots : List TableId) (vs : List Value) :
    (writtenValues H slots vs).filterMap Value.table? =
      vs.filterMap Value.table? ++ slots.flatMap H.children := by
  unfold writtenValues
  rw [List.filterMap_append, List.filterMap_flatMap]
  congr 1
  refine List.flatMap_congr fun t _ => ?_
  rw [Heap.children, Listing.children_eq]
  exact filterMap_values _

/-- Nothing in a document is too deep if no term of what is written is. -/
theorem shallow_iff_forall {o : Options} {c : Census} : Shallow H o form c es ↔
    ∀ v ∈ writtenValues H (Document.slotted form c) (es.flatMap fun e => [e.1, e.2]),
      (termOf H (slotOf form c) o.limits.maxDepth v).isTooDeep = false := by
  have hboth : Shallow H o form c es ↔
      (∀ x ∈ slotEntries H (Document.slotted form c),
        (termOf H (slotOf form c) o.limits.maxDepth x.2.1).isTooDeep = false ∧
          (termOf H (slotOf form c) o.limits.maxDepth x.2.2).isTooDeep = false) ∧
      ∀ e ∈ es, (termOf H (slotOf form c) o.limits.maxDepth e.1).isTooDeep = false ∧
        (termOf H (slotOf form c) o.limits.maxDepth e.2).isTooDeep = false :=
    ⟨fun h => ⟨h.fills, h.bindings⟩, fun h => ⟨h.1, h.2⟩⟩
  rw [hboth, and_comm]
  unfold writtenValues slotEntries
  simp only [List.forall_mem_append, List.forall_mem_flatMap, List.forall_mem_map,
    List.forall_mem_cons, List.not_mem_nil, false_imp_iff, implies_true, and_true]

/-- No more is written out one level deeper than where nothing is too deep. -/
theorem written_succ {slots : List TableId} {depth : Nat} {vs : List Value}
    (hdeep : ∀ v ∈ writtenValues H slots vs,
      (termOf H (Document.slotIn? slots) depth v).isTooDeep = false)
    (ht : t ∈ vs.filterMap Value.table? ++ slots.flatMap H.children) :
    written H.children (fun t => (Document.slotIn? slots t).isSome) (depth + 1) t =
      written H.children (fun t => (Document.slotIn? slots t).isSome) depth t := by
  rw [← filterMap_writtenValues] at ht
  obtain ⟨v, hv, htable⟩ := List.mem_filterMap.1 ht
  simpa [writtenIn, htable] using writtenIn_succ v (hdeep v hv)

section

variable {vs : List Value} {slots : List TableId} (h : H.WellFormed)
  (hvs : ∀ v ∈ vs, v.InHeap H) (hslots : Document.slotted form (Census.ofValues H vs) = slots)
include h hvs

/-- The tables that a census finds lead to no others. -/
theorem mem_all_of_mem_children {u : TableId} (ht : t ∈ (Census.ofValues H vs).all)
    (hu : u ∈ H.children t) : u ∈ (Census.ofValues H vs).all :=
  (Census.mem_all_iff h hvs).2 (.child ((Census.mem_all_iff h hvs).1 ht) hu)

include hslots

theorem mem_all_of_mem_roots (ht : t ∈ vs.filterMap Value.table? ++ slots.flatMap H.children) :
    t ∈ (Census.ofValues H vs).all := by
  rcases List.mem_append.1 ht with ht | ht
  · exact (Census.mem_all_iff h hvs).2 (.root ht)
  · obtain ⟨u, hu, ht⟩ := List.mem_flatMap.1 ht
    exact mem_all_of_mem_children h hvs (mem_all_of_mem_slotted (hslots ▸ hu)) ht

/-- No table is written out twice, and only those found are that have no slot. -/
theorem nodup_written_ofValues (depth : Nat) :
    let ts := (vs.filterMap Value.table? ++ slots.flatMap H.children).flatMap
      (written H.children (fun t => (Document.slotIn? slots t).isSome) depth)
    ts.Nodup ∧ ∀ t ∈ ts, t ∈ (Census.ofValues H vs).all ∧ t ∉ slots := by
  have hnot {t : TableId} (ht : (Document.slotIn? slots t).isSome = false) : t ∉ slots :=
    fun hslot => Bool.false_ne_true (ht.symm.trans (isSome_slotIn?.2 hslot))
  have hcount {t : TableId} (ht : t ∉ slots) := Census.count_unslotted h hvs (hslots ▸ ht)
  rw [hslots] at hcount
  obtain ⟨hnodup, hmem⟩ := nodup_written (fun _ ht => mem_all_of_mem_roots h hvs hslots ht)
    (fun _ ht _ hu => mem_all_of_mem_children h hvs ht hu) (fun _ ht => hcount (hnot ht)) depth
  exact ⟨hnodup, fun t ht => (mem_unslotted.1 (hmem t ht)).imp id hnot⟩

omit hslots in
/-- Every table found has a slot or is written out, if nothing is too deep. -/
theorem mem_written_ofValues {depth : Nat}
    (hdeep : ∀ v ∈ writtenValues H slots vs,
      (termOf H (Document.slotIn? slots) depth v).isTooDeep = false)
    (ht : t ∈ (Census.ofValues H vs).all) :
    t ∈ slots ∨ t ∈ (vs.filterMap Value.table? ++ slots.flatMap H.children).flatMap
      (written H.children (fun t => (Document.slotIn? slots t).isSome) depth) :=
  mem_written_of_reach (fun _ => isSome_slotIn?) (fun _ ht => written_succ hdeep ht)
    ((Census.mem_all_iff h hvs).1 ht)

end

variable (h : H.WellFormed) (hin : ∀ e ∈ es, e.1.InHeap H ∧ e.2.InHeap H)
include h hin

theorem sound_censusOf : Census.Sound H.size (Save.censusOf H es) :=
  Census.sound_ofValues h (inHeap_values hin)

/-- The tables found are those that can be reached from the entries. -/
theorem mem_censusOf_iff : t ∈ (Save.censusOf H es).all ↔
    Census.Reach H.children (Listing.tablesOf es) t := by
  rw [← filterMap_values]
  exact Census.mem_all_iff h (inHeap_values hin)

/-! ## Faithful documents -/

variable {o : Options} (hkeys : (es.map Prod.fst).Nodup)
  (hkey : ∀ e ∈ es, e.1.IsKey ∧ e.1.isHandle = false)
  (hs : Shallow H o form (Save.censusOf H es) es)

include hkeys hkey hs in
/-- **A document in which nothing is too deep is faithful.** -/
theorem faithful :
    Faithful H (Document.slotted form (Save.censusOf H es)) o.limits.maxDepth es := by
  have hvs := inHeap_values hin
  have hsound := sound_censusOf h hin
  have hnodup := nodup_slotted form hsound.nodup
  have hslotted {t : TableId} (ht : t ∈ Document.slotted form (Save.censusOf H es)) :
      t ∈ (Save.censusOf H es).all := mem_all_of_mem_slotted ht
  have hdeep := shallow_iff_forall.1 hs
  obtain ⟨hfills, hbindings⟩ := hs
  unfold slotOf at hfills hbindings hdeep
  generalize hslots : Document.slotted form (Save.censusOf H es) = slots at *
  obtain ⟨honce, hmade⟩ := nodup_written_ofValues h hvs hslots o.limits.maxDepth
  have hperm := perm_made H slots o.limits.maxDepth es
  rw [← filterMap_values] at hperm
  have hmet {t : TableId} (ht : t ∈ (Save.censusOf H es).all) :
      IsMet H slots o.limits.maxDepth es t :=
    (mem_written_ofValues h hvs hdeep ht).imp id hperm.mem_iff.2
  have hmem_all {t : TableId} (ht : IsMet H slots o.limits.maxDepth es t) :
      t ∈ (Save.censusOf H es).all :=
    ht.elim hslotted fun ht => (hmade t (hperm.mem_iff.1 ht)).1
  refine ⟨hnodup, ?_, hkeys, hkey, hfills, hbindings, hperm.nodup_iff.2 honce,
    fun t ht => (hmade t (hperm.mem_iff.1 ht)).2, fun t ht => ?_, fun t ht u hu => ?_⟩
  · have hsub := (List.subperm_of_subset hnodup fun t ht => hslotted ht).length_le
    exact Nat.lt_of_le_of_lt (Nat.le_trans hsub hsound.length_le) h.size
  · rw [← filterMap_values] at ht
    exact hmet (mem_all_of_mem_roots h hvs hslots (List.mem_append_left _ ht))
  · exact hmet (mem_all_of_mem_children h hvs (hmem_all ht) hu)

end

end LuaGraph
