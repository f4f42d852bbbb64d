import LuaGraph.Proofs.Graph.Outline

/-!
# Parallel graphs

Two heaps are parallel on some tables, if each of these has a counterpart of its own in the other
heap, with the same outlines in its listing, and all that it leads to is among them. Then everything
that is made of the two graphs is made in step: a census finds counterparts in the same order and
counts them as often, so they get the same slots, and what is written is the same.

Results: `inStep_ofValues`, `ofValue_eq`, **`ofBindings_eq`**.
-/

namespace LuaGraph

/-- The tables have counterparts in the other heap that are written alike. -/
structure Parallel (H H' : Heap) (φ : TableId → TableId) (met : TableId → Prop) : Prop where
  outline : ∀ t, met t → (H.listing t).outline φ = (H'.listing (φ t)).outline id
  injective : ∀ t u, met t → met u → φ t = φ u → t = u
  closed : ∀ t, met t → ∀ u ∈ H.children t, met u
  inHeap : ∀ t, met t → t < H.size ∧ φ t < H'.size

variable {H H' : Heap} {φ : TableId → TableId} {met : TableId → Prop}

/-- Counterparts lead to counterparts. -/
theorem Parallel.children_eq (hp : Parallel H H' φ met) {t : TableId} (ht : met t) :
    H'.children (φ t) = (H.children t).map φ :=
  Listing.children_eq_map (hp.outline t ht)

/-! ## Censuses -/

namespace Census

variable {c c₁ c' : Census} {t : TableId} {ts : List TableId}

/-- The censuses found counterparts, and counted them as often. -/
structure InStep (H H' : Heap) (φ : TableId → TableId) (met : TableId → Prop)
    (c c' : Census) : Prop where
  all : c'.all = c.all.map φ
  mem : ∀ t ∈ c.all, met t
  count : ∀ t, met t → c'.count (φ t) = c.count t
  sizes : c.counts.size = H.size ∧ c'.counts.size = H'.size

theorem inStep_start (H H' : Heap) (φ : TableId → TableId) (met : TableId → Prop) :
    InStep H H' φ met (start H) (start H') where
  all := rfl
  mem t ht := absurd ht List.not_mem_nil
  count t _ := by
    have hzero (H : Heap) (t : TableId) : (start H).count t = 0 := by
      simp only [Census.count, start, Array.getD_eq_getD_getElem?, Array.getElem?_replicate]
      split <;> rfl
    rw [hzero, hzero]
  sizes := ⟨Array.size_replicate, Array.size_replicate⟩

variable (hp : Parallel H H' φ met)
include hp

theorem InStep.count_again (hs : InStep H H' φ met c c') (ht : met t) (u : TableId) (hu : met u) :
    (c'.again (φ t)).count (φ u) = (c.again t).count u := by
  obtain ⟨hlt, hlt'⟩ := hp.inHeap t ht
  rw [← hs.sizes.1] at hlt
  rw [← hs.sizes.2] at hlt'
  have hcount : [φ t].count (φ u) = [t].count u := by
    by_cases heq : t = u
    · rw [heq, List.count_singleton_self, List.count_singleton_self]
    · have hne : φ t ≠ φ u := fun h => heq (hp.injective t u ht hu h)
      rw [List.count_singleton, List.count_singleton, if_neg (by simpa using hne),
        if_neg (by simpa using heq)]
  rw [Census.count_again hlt', Census.count_again hlt, hs.count u hu, hcount]

theorem InStep.again (hs : InStep H H' φ met c c') (ht : met t) :
    InStep H H' φ met (c.again t) (c'.again (φ t)) where
  all := hs.all
  mem := hs.mem
  count := hs.count_again hp ht
  sizes := by
    unfold Census.again
    rw [Array.size_modify, Array.size_modify]
    exact hs.sizes

theorem InStep.first (hs : InStep H H' φ met c c') (ht : met t) :
    InStep H H' φ met (c.first t) (c'.first (φ t)) where
  all := by rw [all_first, all_first, hs.all, List.map_append, List.map_singleton]
  mem u hu := by
    rw [all_first, List.mem_append, List.mem_singleton] at hu
    exact hu.elim (hs.mem u) fun heq => heq ▸ ht
  count := hs.count_again hp ht
  sizes := by
    unfold Census.first
    rw [Array.size_modify, Array.size_modify]
    exact hs.sizes

/-- **Walks go in step.** -/
theorem meets_inStep (h : Meets H.children c ts c₁) (hs : InStep H H' φ met c c')
    (hts : ∀ t ∈ ts, met t) :
    ∃ c₁', Meets H'.children c' (ts.map φ) c₁' ∧ InStep H H' φ met c₁ c₁' := by
  induction h generalizing c' with
  | nil => exact ⟨c', .nil, hs⟩
  | again hc _ ih =>
    obtain ⟨ht, hts⟩ := List.forall_mem_cons.1 hts
    obtain ⟨c₁', hwalk, hs'⟩ := ih (hs.again hp ht) hts
    exact ⟨c₁', .again (by rwa [hs.count _ ht]) hwalk, hs'⟩
  | first hc _ _ ih₁ ih₂ =>
    obtain ⟨ht, hts⟩ := List.forall_mem_cons.1 hts
    obtain ⟨c₁', hbelow, hs₁⟩ := ih₁ (hs.first hp ht) (hp.closed _ ht)
    obtain ⟨c₂', hwalk, hs₂⟩ := ih₂ hs₁ hts
    rw [← hp.children_eq ht] at hbelow
    exact ⟨c₂', .first (by rwa [hs.count _ ht]) hbelow hwalk, hs₂⟩

/-- **Censuses of values with corresponding tables are in step.** -/
theorem inStep_ofValues (h : H.WellFormed) (h' : H'.WellFormed) {vs vs' : List Value}
    (hvs : ∀ v ∈ vs, v.InHeap H) (hvs' : ∀ v ∈ vs', v.InHeap H')
    (hroots : vs'.filterMap Value.table? = (vs.filterMap Value.table?).map φ)
    (hmet : ∀ t ∈ vs.filterMap Value.table?, met t) :
    InStep H H' φ met (ofValues H vs) (ofValues H' vs') := by
  obtain ⟨c', hwalk, hs⟩ :=
    meets_inStep hp (meets_ofValues h hvs) (inStep_start H H' φ met) hmet
  rw [← hroots] at hwalk
  rwa [(meets_ofValues h' hvs').functional hwalk]

end Census

/-! ## Slots -/

theorem slotted_inStep {c c' : Census} (hs : Census.InStep H H' φ met c c') (form : Form) :
    Document.slotted form c' = (Document.slotted form c).map φ := by
  cases form with
  | tree =>
    show c'.all.filter (fun t => 1 < c'.count t) = (c.all.filter fun t => 1 < c.count t).map φ
    rw [hs.all, List.filter_map]
    refine congrArg (List.map φ) (List.filter_congr fun t ht => ?_)
    show decide (1 < c'.count (φ t)) = _
    rw [hs.count t (hs.mem t ht)]
  | reference => exact hs.all
  | split => exact hs.all

/-- Counterparts have the same slot. -/
theorem slotIn?_map (hp : Parallel H H' φ met) {slots : List TableId}
    (hslots : ∀ t ∈ slots, met t) {t : TableId} (ht : met t) :
    Document.slotIn? (slots.map φ) (φ t) = Document.slotIn? slots t := by
  unfold Document.slotIn?
  congr 1
  induction slots with
  | nil => rfl
  | cons u slots ih =>
    obtain ⟨hu, hslots⟩ := List.forall_mem_cons.1 hslots
    rw [List.map_cons, List.idxOf?_cons, List.idxOf?_cons, ih hslots]
    by_cases heq : u = t
    · rw [heq, beq_self_eq_true, beq_self_eq_true]
    · have hne : φ u ≠ φ t := fun h => heq (hp.injective u t hu ht h)
      rw [beq_false_of_ne heq, beq_false_of_ne hne]

/-! ## Terms -/

section

variable (hp : Parallel H H' φ met) {slot? slot?' : TableId → Option Nat}
  (hslot : ∀ t, met t → slot?' (φ t) = slot? t)
include hp hslot

/-- **Values with the same outline are written as the same term.** -/
theorem ofValue_eq (depth : Nat) {v w : Value} (hv : v.outline φ = w.outline id)
    (hmet : ∀ t, v = .table t → met t) :
    Term.ofValue H.listing slot? depth v = Term.ofValue H'.listing slot?' depth w := by
  induction depth generalizing v w with
  | zero =>
    unfold Term.ofValue
    rw [Value.view_eq hv]
    cases hview : v.view with
    | inl a => rfl
    | inr t => simp only [Sum.map_inr, hslot t (hmet t (Value.eq_table_of_view hview))]
  | succ depth ih =>
    unfold Term.ofValue
    rw [Value.view_eq hv]
    cases hview : v.view with
    | inl a => rfl
    | inr t =>
      have ht : met t := hmet t (Value.eq_table_of_view hview)
      simp only [Sum.map_inr, hslot t ht]
      cases slot? t with
      | some i => rfl
      | none =>
        obtain ⟨hitems, hfields⟩ := Listing.mk.inj (hp.outline t ht)
        have hbelow {v w : Value} (hv : v.outline φ = w.outline id)
            (hmem : ∀ u, v.table? = some u → u ∈ H.children t) :
            Term.ofValue H.listing slot? depth v = Term.ofValue H'.listing slot?' depth w :=
          ih hv fun u hu => hp.closed t ht u (hmem u (by rw [hu]; rfl))
        simp only [Term.fieldsOf]
        congr 2
        · refine map_eq_map_of_outline hitems fun v hv w _ hvw => ?_
          rw [hbelow hvw fun u hu => List.mem_append_left _ (List.mem_filterMap.2 ⟨v, hv, hu⟩)]
        · refine map_eq_map_of_outline hfields fun e he e' _ hee => ?_
          obtain ⟨hk, hw⟩ := Prod.mk.inj hee
          have hmem (v : Value) (hv : v ∈ [e.1, e.2]) (u : TableId) (hu : v.table? = some u) :
              u ∈ H.children t :=
            List.mem_append_right _
              (List.mem_flatMap.2 ⟨e, he, List.mem_filterMap.2 ⟨v, hv, hu⟩⟩)
          rw [hbelow hk (hmem e.1 (by simp)), hbelow hw (hmem e.2 (by simp))]

end

/-! ## Documents -/

section

variable (hp : Parallel H H' φ met) {slots : List TableId} (hslots : ∀ t ∈ slots, met t)
include hp hslots

/-- Entries with the same outlines are written as the same terms, where the tables in them are
met. -/
theorem terms_eq (depth : Nat) {e e' : Entry} (hee : e.outline φ = e'.outline id)
    (hmet : ∀ u, e.1 = .table u ∨ e.2 = .table u → met u) :
    Term.ofValue H.listing (Document.slotIn? slots) depth e.1 =
        Term.ofValue H'.listing (Document.slotIn? (slots.map φ)) depth e'.1 ∧
      Term.ofValue H.listing (Document.slotIn? slots) depth e.2 =
        Term.ofValue H'.listing (Document.slotIn? (slots.map φ)) depth e'.2 := by
  obtain ⟨hk, hv⟩ := Prod.mk.inj hee
  have hslot (t : TableId) (ht : met t) := slotIn?_map hp hslots ht
  exact ⟨ofValue_eq hp hslot depth hk fun u hu => hmet u (.inl hu),
    ofValue_eq hp hslot depth hv fun u hu => hmet u (.inr hu)⟩

/-- The fill statements of counterparts are the same. -/
theorem fills_inStep (depth : Nat) :
    Document.fills H.listing (Term.ofValue H.listing (Document.slotIn? slots) depth) slots =
      Document.fills H'.listing (Term.ofValue H'.listing (Document.slotIn? (slots.map φ)) depth)
        (slots.map φ) := by
  unfold Document.fills
  rw [List.zipIdx_map, List.flatMap_map]
  refine List.flatMap_congr fun x hx => ?_
  have ht : met x.1 := by
    refine hslots x.1 ?_
    rw [← List.zipIdx_map_fst 1 slots]
    exact List.mem_map_of_mem hx
  refine map_eq_map_of_outline (Listing.pairs_eq (hp.outline x.1 ht)) fun e he e' _ hee => ?_
  obtain ⟨hk, hv⟩ := terms_eq hp hslots depth hee
    fun u hu => hp.closed x.1 ht u (Heap.mem_children.2 ⟨e, he, hu⟩)
  rw [hk, hv]
  rfl

omit hslots in
/-- **The documents of parallel graphs are the same.** -/
theorem ofBindings_eq {o : Options} {form : Form} {c c' : Census} {es es' : List Entry}
    (hs : Census.InStep H H' φ met c c')
    (hes : es.map (Entry.outline φ) = es'.map (Entry.outline id))
    (hmet : ∀ t ∈ Listing.tablesOf es, met t) :
    Document.ofBindings H o form c es = Document.ofBindings H' o form c' es' := by
  have hslots (t : TableId) (ht : t ∈ Document.slotted form c) : met t :=
    hs.mem t (mem_all_of_mem_slotted ht)
  unfold Document.ofBindings
  dsimp only
  rw [slotted_inStep hs form, List.length_map, ← fills_inStep hp hslots]
  congr 1
  refine map_eq_map_of_outline hes fun e he e' _ hee => ?_
  obtain ⟨hk, hv⟩ := terms_eq hp hslots o.limits.maxDepth hee
    fun u hu => hmet u (Listing.mem_tablesOf.2 ⟨e, he, hu⟩)
  rw [hk, hv]

end

end LuaGraph
