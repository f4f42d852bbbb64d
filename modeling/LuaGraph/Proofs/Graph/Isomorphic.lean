import LuaGraph.Proofs.Graph.Calm
import LuaGraph.Proofs.Graph.Parallel

/-!
# Isomorphic bindings

Bindings in two heaps are isomorphic if they hold the same, up to the numbers of tables, the
identities of handles and the order of entries. If moreover the same keys are required, no sort
panics, and the tables among the keys of a table have different signatures, which are those of their
counterparts, the bindings are interchangeable: the entries to be written have the same outlines in
the same order, and all that can be reached from them is parallel.

Results: `outline_entriesOf`, `parallel`, **`attempt?_eq`**.
-/

namespace LuaGraph

/-- **The bindings hold the same**: the tables that can be reached from them correspond one to one,
and have entries with the same outlines in some order. Entries whose key is a handle are passed
over, as they are never written. -/
structure Isomorphic (H H' : Heap) (φ : TableId → TableId) (bindings bindings' : TableId) :
    Prop where
  root : SameOutlines φ (H.writable bindings) (H'.writable bindings')
  tables : ∀ t, Leads H.writable bindings t →
    SameOutlines φ (H.writable t) (H'.writable (φ t))
  injective : ∀ t u, Leads H.writable bindings t → Leads H.writable bindings u →
    φ t = φ u → t = u

/-- The keys that are required among the bindings, without handles. -/
def requiredKeys (H : Heap) : Option TableId → List Value
  | none => []
  | some r => (H.writable r).map Prod.fst

/-- Bindings that hold the same, with the same required keys, where no sort panics and the tables
among the keys of a table are told apart by their signatures, which are the same. -/
structure Interchangeable (H H' : Heap) (φ : TableId → TableId) (bindings bindings' : TableId)
    (required required' : Option TableId) : Prop where
  wellFormed : H.WellFormed
  wellFormed' : H'.WellFormed
  isomorphic : Isomorphic H H' φ bindings bindings'
  sorts : Save.Sorts H bindings required
  sorts' : Save.Sorts H' bindings' required'
  apart : ∀ t, t = bindings ∨ Leads H.writable bindings t →
    Listing.Apart (Listing.known H.signature?) (H.writable t)
  signature : ∀ t, t = bindings ∨ Leads H.writable bindings t →
    ∀ e ∈ H.writable t, ∀ u ∈ e.1.table?,
      Listing.known H'.signature? (φ u) = Listing.known H.signature? u
  sameKeys : (requiredKeys H required).Perm (requiredKeys H' required')
  scalars : ∀ k ∈ requiredKeys H required, k.isTable = false

section

variable {H H' : Heap} {φ : TableId → TableId} {bindings bindings' t t' : TableId}
  {required required' : Option TableId} {es es' : List Entry} {e : Entry} {k : Value}

/-! ## Tables with the same outlines -/

theorem SameOutlines.perm_tablesOf (h : SameOutlines φ es es') :
    ((Listing.tablesOf es).map φ).Perm (Listing.tablesOf es') := by
  have hperm : (Listing.tablesOf (es.map (Entry.outline φ))).Perm
      (Listing.tablesOf (es'.map (Entry.outline id))) := h.flatMap_right _
  rwa [Listing.tablesOf_outline, Listing.tablesOf_outline, List.map_id] at hperm

theorem mem_keys_iff (hk : k.isHandle = false) :
    k ∈ (H.table t).keys ↔ k ∈ (H.writable t).map Prod.fst := by
  unfold Table.keys Heap.writable
  constructor
  · intro h
    obtain ⟨e, he, rfl⟩ := List.mem_map.1 h
    exact List.mem_map_of_mem (List.mem_filter.2 ⟨he, by rw [hk]; rfl⟩)
  · intro h
    obtain ⟨e, he, rfl⟩ := List.mem_map.1 h
    exact List.mem_map_of_mem (List.mem_of_mem_filter he)

/-- An entry with a table as its key is written. -/
theorem mem_writable (he : e ∈ (H.table t).entries) {u : TableId} (hu : e.1 = .table u) :
    e ∈ H.writable t :=
  List.mem_filter.2 ⟨he, by rw [hu]; rfl⟩

/-- Tables among the keys of all entries are told apart if those of written ones are. -/
theorem apart_entries {text : TableId → String} (ha : Listing.Apart text (H.writable t)) :
    Listing.Apart text (H.table t).entries :=
  fun e he e' he' u w hu hw => ha e (mem_writable he hu) e' (mem_writable he' hw) u w hu hw

/-- Tables that can be reached are in the heap, and so are their counterparts. -/
theorem Isomorphic.inHeap (hi : Isomorphic H H' φ bindings bindings') (h : H.WellFormed)
    (h' : H'.WellFormed) (ht : Leads H.writable bindings t) : t < H.size ∧ φ t < H'.size := by
  have hclosed {H : Heap} (h : H.WellFormed) {t u : TableId}
      (hu : u ∈ Listing.tablesOf (H.writable t)) : u < H.size := by
    obtain ⟨e, he, hu⟩ := Listing.mem_tablesOf.1 hu
    obtain ⟨hk, hv⟩ := h.closed t e (List.mem_of_mem_filter he)
    exact hu.elim (hk u) (hv u)
  have hboth {t t' u : TableId} (hsame : SameOutlines φ (H.writable t) (H'.writable t'))
      (hu : u ∈ Listing.tablesOf (H.writable t)) : u < H.size ∧ φ u < H'.size :=
    ⟨hclosed h hu, hclosed h' (hsame.perm_tablesOf.mem_iff.1 (List.mem_map_of_mem hu))⟩
  cases ht with
  | root hu => exact hboth hi.root hu
  | child ht hu => exact hboth (hi.tables _ ht) hu

/-- The counterpart of a table that can be reached can be reached. -/
theorem Isomorphic.leads (hi : Isomorphic H H' φ bindings bindings')
    (ht : Leads H.writable bindings t) : Leads H'.writable bindings' (φ t) := by
  induction ht with
  | root hu => exact .root (hi.root.perm_tablesOf.mem_iff.1 (List.mem_map_of_mem hu))
  | child ht hu ih =>
    exact .child ih ((hi.tables _ ht).perm_tablesOf.mem_iff.1 (List.mem_map_of_mem hu))

/-- Every table that can be reached is the counterpart of one. -/
theorem Isomorphic.exists_of_leads (hi : Isomorphic H H' φ bindings bindings')
    (ht : Leads H'.writable bindings' t') : ∃ t, Leads H.writable bindings t ∧ φ t = t' := by
  induction ht with
  | root hu =>
    obtain ⟨t, ht, rfl⟩ := List.mem_map.1 (hi.root.perm_tablesOf.mem_iff.2 hu)
    exact ⟨t, .root ht, rfl⟩
  | child _ hu ih =>
    obtain ⟨t, ht, rfl⟩ := ih
    obtain ⟨u, hmem, rfl⟩ := List.mem_map.1 ((hi.tables t ht).perm_tablesOf.mem_iff.2 hu)
    exact ⟨u, .child ht hmem, rfl⟩

/-! ## Required keys -/

/-- The entries that stand for required keys, but not for handles. -/
theorem missing_filter (H : Heap) (bindings : TableId) (required : Option TableId) :
    (Save.missing H bindings required).filter (fun e => !e.1.isHandle) =
      ((requiredKeys H required).filter fun k => !(H.table bindings).contains k).map
        fun k => (k, .nil) := by
  cases required with
  | none => rfl
  | some r =>
    simp only [Save.missing, requiredKeys, Heap.writable, Table.keys, List.filter_map,
      List.filter_filter]
    congr 2
    exact List.filter_congr fun e _ => Bool.and_comm ..

/-- A required key is a key and no handle. -/
theorem isKey_of_required (h : H.WellFormed) (hk : k ∈ requiredKeys H required) :
    k.IsKey ∧ k.isHandle = false := by
  cases required with
  | none => cases hk
  | some r =>
    obtain ⟨e, he, rfl⟩ := List.mem_map.1 hk
    obtain ⟨hmem, hh⟩ := List.mem_filter.1 he
    exact ⟨(h.tables r).1.isKey_of_mem hmem, by simpa using hh⟩

/-- The entries that stand for required scalars have no tables as keys. -/
theorem eq_entry_of_table {u : TableId}
    (hscalars : ∀ k ∈ requiredKeys H required, k.isTable = false)
    (he : e ∈ (H.table bindings).entries ++ Save.missing H bindings required)
    (hu : e.1 = .table u) : e ∈ H.writable bindings := by
  rcases List.mem_append.1 he with he | he
  · exact mem_writable he hu
  · have hmem : e ∈ (Save.missing H bindings required).filter fun e => !e.1.isHandle :=
      List.mem_filter.2 ⟨he, by rw [hu]; rfl⟩
    rw [missing_filter] at hmem
    obtain ⟨k, hk, rfl⟩ := List.mem_map.1 hmem
    have hk := hscalars k (List.mem_of_mem_filter hk)
    obtain rfl : k = .table u := hu
    cases hk

/-- Required scalars lead to no tables. -/
theorem reach_written_iff (hscalars : ∀ k ∈ requiredKeys H required, k.isTable = false) :
    Census.Reach H.below (Listing.tablesOf (Save.written H bindings required)) t ↔
      Leads H.writable bindings t := by
  have hroots (u : TableId) : u ∈ Listing.tablesOf (Save.written H bindings required) ↔
      u ∈ Listing.tablesOf (H.writable bindings) := by
    have hwritten : Save.written H bindings required = H.writable bindings ++
        (Save.missing H bindings required).filter fun e => !e.1.isHandle :=
      List.filter_append ..
    rw [hwritten, missing_filter, Listing.tablesOf, List.flatMap_append, List.mem_append]
    refine or_iff_left fun hu => ?_
    obtain ⟨e, he, hu⟩ := Listing.mem_tablesOf.1 hu
    obtain ⟨k, hk, rfl⟩ := List.mem_map.1 he
    have hk := hscalars k (List.mem_of_mem_filter hk)
    rcases hu with rfl | hu
    · cases hk
    · cases hu
  exact Census.Reach.congr hroots fun _ _ => Iff.rfl

/-- Entries that give scalars to nil are their own outlines. -/
theorem outline_scalars {ks : List Value} (φ : TableId → TableId) (h : ∀ k ∈ ks, k.IsScalar) :
    (ks.map fun k => (k, Value.nil)).map (Entry.outline φ) = ks.map fun k => (k, .nil) := by
  rw [List.map_map]
  exact List.map_congr_left fun k hk => congrArg (·, Value.nil) ((h k hk).outline_eq φ)

/-- The same required keys are missing. -/
theorem Interchangeable.missing (h : Interchangeable H H' φ bindings bindings' required required') :
    SameOutlines φ ((Save.missing H bindings required).filter fun e => !e.1.isHandle)
      ((Save.missing H' bindings' required').filter fun e => !e.1.isHandle) := by
  have hscalar (k : Value) (hk : k ∈ requiredKeys H required) : k.IsScalar :=
    ⟨h.scalars k hk, (isKey_of_required h.wellFormed hk).2⟩
  have hcontains (k : Value) (hk : k ∈ requiredKeys H required) :
      (!(H.table bindings).contains k) = !(H'.table bindings').contains k := by
    obtain ⟨hkey, hh⟩ := isKey_of_required h.wellFormed hk
    rw [Table.contains_eq hkey, Table.contains_eq hkey]
    refine congrArg not (decide_eq_decide.2 ?_)
    rw [mem_keys_iff hh, mem_keys_iff hh, h.isomorphic.root.mem_keys_iff (hscalar k hk)]
  rw [SameOutlines, missing_filter, missing_filter, List.filter_congr hcontains,
    outline_scalars φ fun k hk => hscalar k (List.mem_of_mem_filter hk),
    outline_scalars id fun k hk => hscalar k (h.sameKeys.mem_iff.2 (List.mem_of_mem_filter hk))]
  exact (h.sameKeys.filter _).map _

/-! ## Interchangeable bindings -/

namespace Interchangeable

variable (h : Interchangeable H H' φ bindings bindings' required required')
include h

/-- Tables that can be reached are listed, and their counterparts too. -/
theorem listed (ht : Leads H.writable bindings t) : H.Listed t ∧ H'.Listed (φ t) :=
  ⟨h.sorts.tables t ((reach_written_iff h.scalars).2 ht),
    h.sorts'.tables (φ t) ((reach_written_iff fun k hk => h.scalars k (h.sameKeys.mem_iff.2 hk)).2
      (h.isomorphic.leads ht))⟩

/-- What can be reached from interchangeable bindings is parallel. -/
theorem parallel : Parallel H H' φ (Leads H.writable bindings) where
  outline t ht := by
    obtain ⟨hlisted, hlisted'⟩ := h.listed ht
    exact Listing.outline_ofTable (h.wellFormed.tables t).1 (h.wellFormed'.tables (φ t)).1
      (h.isomorphic.tables t ht) (apart_entries (h.apart t (.inr ht)))
      (fun e he u hu => h.signature t (.inr ht) e
        (mem_writable he (Value.eq_table_of_table? hu)) u hu) hlisted.eq hlisted'.eq
  injective := h.isomorphic.injective
  closed t ht u hu := by
    refine .child ht ?_
    obtain ⟨e, he, hu⟩ := Heap.mem_children.1 hu
    exact Listing.mem_tablesOf.2 ⟨e, (Heap.perm_pairs h.wellFormed t).mem_iff.1 he, hu⟩
  inHeap t ht := h.isomorphic.inHeap h.wellFormed h.wellFormed' ht

/-- **The same entries are to be written**, in the same order. -/
theorem outline_entriesOf :
    (Save.entriesOf H bindings required).map (Entry.outline φ) =
      (Save.entriesOf H' bindings' required').map (Entry.outline id) := by
  have hsorted := h.sorts.entriesOf?_eq
  have hsorted' := h.sorts'.entriesOf?_eq
  rw [Save.entriesOf?_eq] at hsorted hsorted'
  have hdistinct {H : Heap} (h : H.WellFormed) (bindings : TableId) (required : Option TableId) :
      Distinct ((H.table bindings).entries ++ Save.missing H bindings required) :=
    ⟨fun e he => isKey_of_mem_bound h he, nodup_keys h bindings required⟩
  have hentry {e : Entry}
      (he : e ∈ (H.table bindings).entries ++ Save.missing H bindings required) {u : TableId}
      (hu : e.1 = .table u) := eq_entry_of_table h.scalars he hu
  refine Listing.map_eq_of_apart (hdistinct h.wellFormed _ _) (hdistinct h.wellFormed' _ _)
    (fun e he e' he' u w hu hw => h.apart bindings (.inl rfl) e (hentry he hu) e' (hentry he' hw)
      u w hu hw) hsorted hsorted' (Listing.perm_keyed ?_ fun e he u hu => ?_)
  · rw [SameOutlines, List.filter_append, List.filter_append, List.map_append, List.map_append]
    exact h.isomorphic.root.append h.missing
  · exact h.signature bindings (.inl rfl) e
      (hentry (List.mem_of_mem_filter he) (Value.eq_table_of_table? hu)) u hu

/-- All tables to be written can be reached from the bindings. -/
theorem leads_of_entriesOf (ht : t ∈ Listing.tablesOf (Save.entriesOf H bindings required)) :
    Leads H.writable bindings t :=
  (reach_written_iff h.scalars).1 (.root
    (((perm_entriesOf H bindings required).flatMap_right _).mem_iff.1 ht))

/-- The censuses of the entries to be written are in step. -/
theorem inStep_censusOf :
    Census.InStep H H' φ (Leads H.writable bindings)
      (Save.censusOf H (Save.entriesOf H bindings required))
      (Save.censusOf H' (Save.entriesOf H' bindings' required')) := by
  have htables := congrArg Listing.tablesOf h.outline_entriesOf
  rw [Listing.tablesOf_outline, Listing.tablesOf_outline, List.map_id] at htables
  refine Census.inStep_ofValues h.parallel h.wellFormed h.wellFormed'
    (inHeap_values fun e he => inHeap_of_mem_entriesOf h.wellFormed he)
    (inHeap_values fun e he => inHeap_of_mem_entriesOf h.wellFormed' he) ?_ fun t ht => ?_
  · rw [filterMap_values, filterMap_values, htables]
  · rw [filterMap_values] at ht
    exact h.leads_of_entriesOf ht

theorem attempt_eq {σ : Type} (check : Check σ) (o : Options) (form : Form) :
    Save.attempt check H o bindings required form =
      Save.attempt check H' o bindings' required' form := by
  have hstep := h.inStep_censusOf
  have hentries := h.outline_entriesOf
  have hleads (t : TableId) (ht : t ∈ Listing.tablesOf (Save.entriesOf H bindings required)) :=
    h.leads_of_entriesOf ht
  unfold Save.attempt
  dsimp only
  generalize Save.entriesOf H bindings required = es at hstep hentries hleads ⊢
  generalize Save.entriesOf H' bindings' required' = es' at hstep hentries ⊢
  generalize Save.censusOf H es = c at hstep ⊢
  generalize Save.censusOf H' es' = c' at hstep ⊢
  have hsize : c.size = c'.size := by
    have hall := congrArg List.length hstep.all
    rw [List.length_map] at hall
    exact hall.symm
  have heffective : Save.effective o c form = Save.effective o c' form := by
    unfold Save.effective
    rw [hsize]
  have hdocument (form : Form) :
      Document.ofBindings H o form c es = Document.ofBindings H' o form c' es' :=
    ofBindings_eq h.parallel hstep hentries hleads
  unfold Save.tryForm Save.render
  dsimp only
  rw [heffective, hdocument]

/-- **Attempts at interchangeable bindings come to the same**, whatever the checker. -/
theorem attempt?_eq {σ : Type} (check : Check σ) (o : Options) (form : Form) :
    Save.attempt? check H o bindings required form =
      Save.attempt? check H' o bindings' required' form := by
  rw [Save.attempt?_of_sorts h.wellFormed h.sorts, Save.attempt?_of_sorts h.wellFormed' h.sorts',
    h.attempt_eq check o form]

end Interchangeable

end

end LuaGraph
