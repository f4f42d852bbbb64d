import LuaGraph.Proofs.Graph.Statements

/-!
# Documents of bindings

The document of some bindings has a fill statement for every entry of a table in a slot, in some
grouping (`write_fills`), and a binding for every entry to be written (`write_binding`). If nothing
in it is too deep, then it is writable, so its text is read back as its program.

Results: `blocks_ofBindings`, `shallow_iff` and `writable_ofBindings`.
-/

namespace LuaGraph

/-! ## Slots -/

section

variable {slots : List TableId} {t u : TableId} {i : Nat}

theorem slotIn?_eq_some (h : Document.slotIn? slots t = some i) :
    (1 ≤ i ∧ i ≤ slots.length) ∧ slots[i - 1]? = some t := by
  obtain ⟨j, hj, rfl⟩ := Option.map_eq_some_iff.1 h
  obtain ⟨hlt, heq, -⟩ := List.idxOf?_eq_some_iff.1 hj
  exact ⟨⟨Nat.le_add_left 1 j, hlt⟩, by rw [Nat.add_sub_cancel, List.getElem?_eq_getElem hlt, heq]⟩

theorem isSome_slotIn? : (Document.slotIn? slots t).isSome = true ↔ t ∈ slots := by
  unfold Document.slotIn?
  rw [Option.isSome_map]
  exact List.isSome_idxOf?

theorem slotIn?_eq_none : Document.slotIn? slots t = none ↔ t ∉ slots := by
  rw [← isSome_slotIn?, Option.not_isSome_iff_eq_none]

/-- No two tables share a slot. -/
theorem slotIn?_inj (ht : Document.slotIn? slots t = some i)
    (hu : Document.slotIn? slots u = some i) : t = u :=
  Option.some.inj ((slotIn?_eq_some ht).2.symm.trans (slotIn?_eq_some hu).2)

theorem slotIn?_of_mem_zipIdx (hn : slots.Nodup) (h : (t, i) ∈ slots.zipIdx 1) :
    Document.slotIn? slots t = some i := by
  obtain ⟨hle, hget⟩ := List.mem_zipIdx_iff_le_and_getElem?_sub.1 h
  obtain ⟨hlt, heq⟩ := List.getElem?_eq_some_iff.1 hget
  have hfirst (j : Nat) (hj : j < i - 1) : ¬slots[j] = t := fun h' => by
    have := (List.Nodup.getElem_inj_iff hn).1 (h'.trans heq.symm)
    omega
  have hidx : slots.idxOf? t = some (i - 1) := List.idxOf?_eq_some_iff.2 ⟨hlt, heq, hfirst⟩
  have hi : i - 1 + 1 = i := Nat.sub_add_cancel hle
  rw [Document.slotIn?, hidx, Option.map_some, hi]

/-- Tables in slots are numbered from one. -/
theorem map_slotIn?_self (hn : slots.Nodup) :
    slots.map (Document.slotIn? slots) = (List.range' 1 slots.length).map some := by
  have hslots : slots.map (Document.slotIn? slots) =
      (slots.zipIdx 1).map fun x => Document.slotIn? slots x.1 := by
    conv => lhs; arg 2; rw [← List.zipIdx_map_fst 1 slots]
    rw [List.map_map]
    rfl
  rw [hslots, ← List.zipIdx_map_snd 1 slots, List.map_map]
  exact List.map_congr_left fun x hx => slotIn?_of_mem_zipIdx hn hx

end

/-! ## Fill statements -/

section

variable {slots : List TableId}

/-- The entries of the tables in the slots, each with its table. -/
def slotEntries (H : Heap) (slots : List TableId) : List (TableId × Entry) :=
  slots.flatMap fun t => (H.pairs t).map fun e => (t, e)

/-- The fill statements of some slots are those of the entries of their tables. -/
theorem fills_eq (H : Heap) (depth : Nat) (hn : slots.Nodup) :
    Document.fills H.listing (termOf H (Document.slotIn? slots) depth) slots =
      (slotEntries H slots).map (fillFor H (Document.slotIn? slots) depth) := by
  have hzip : slotEntries H slots =
      (slots.zipIdx 1).flatMap fun x => (H.pairs x.1).map fun e => (x.1, e) := by
    conv => lhs; unfold slotEntries; rw [← List.zipIdx_map_fst 1 slots, List.flatMap_map]
  unfold Document.fills
  rw [hzip, List.map_flatMap]
  refine List.flatMap_congr fun x hx => ?_
  rw [List.map_map]
  refine List.map_congr_left fun e _ => ?_
  show Fill.mk _ _ _ = fillFor H (Document.slotIn? slots) depth (x.1, e)
  rw [fillFor, slotIn?_of_mem_zipIdx hn hx]
  rfl

/-- Groups of images are images of groups. -/
theorem exists_groups {α β : Type} {f : α → β} {xs : List α} {yss : List (List β)}
    (h : yss.flatten = xs.map f) :
    ∃ xss : List (List α), xss.flatten = xs ∧ yss = xss.map (List.map f) := by
  induction yss generalizing xs with
  | nil =>
    rw [List.flatten_nil, eq_comm, List.map_eq_nil_iff] at h
    exact ⟨[], h.symm, rfl⟩
  | cons ys yss ih =>
    rw [List.flatten_cons] at h
    obtain ⟨xs₁, xs₂, rfl, h₁, h₂⟩ := List.map_eq_append_iff.1 h.symm
    obtain ⟨xss, rfl, rfl⟩ := ih h₂.symm
    exact ⟨xs₁ :: xss, rfl, by rw [List.map_cons, h₁]⟩

end

/-! ## Writable terms -/

section

variable {H : Heap} {slot? : TableId → Option Nat} {depth n : Nat}

theorem fieldsWritable_iff {fs : List Field} :
    Term.FieldsWritable n fs ↔ ∀ f ∈ fs, Term.FieldWritable n f := by
  induction fs with
  | nil => simp [Term.FieldsWritable]
  | cons f fs ih => simp [Term.FieldsWritable, ih]

/-- A term in which nothing is too deep is writable. -/
theorem writable_termOf (hslot : ∀ t i, slot? t = some i → 1 ≤ i ∧ i ≤ n) {v : Value}
    (h : (termOf H slot? depth v).isTooDeep = false) : (termOf H slot? depth v).Writable n := by
  induction depth, v using termOf_induction slot? with
  | atom depth v a hv =>
    rw [termOf_atom hv]
    trivial
  | slot depth t i hs =>
    rw [termOf_slot hs]
    exact hslot t i hs
  | tooDeep t hs =>
    rw [termOf_zero hs] at h
    cases h
  | table depth t hs ih =>
    rw [termOf_succ hs] at h ⊢
    refine fieldsWritable_iff.2 fun f hf => ?_
    have hdeep := anyTooDeep_iff.1 h f hf
    rcases List.mem_append.1 hf with hf | hf
    · obtain ⟨v, -, rfl⟩ := List.mem_map.1 hf
      exact ih v hdeep
    · obtain ⟨e, -, rfl⟩ := List.mem_map.1 hf
      obtain ⟨hk, hv⟩ := Bool.or_eq_false_iff.1 hdeep
      exact ⟨ih e.1 hk, ih e.2 hv⟩

end

/-! ## The document of some bindings -/

section

variable {H : Heap} {o : Options} {form : Form} {c : Census} {es : List Entry}

/-- The number of the slot of a table in the document of some bindings. -/
def slotOf (form : Form) (c : Census) : TableId → Option Nat :=
  Document.slotIn? (Document.slotted form c)

theorem nodup_slotted (form : Form) (hn : c.all.Nodup) : (Document.slotted form c).Nodup := by
  cases form with
  | tree => exact hn.filter _
  | reference => exact hn
  | split => exact hn

theorem mem_all_of_mem_slotted {t : TableId} (h : t ∈ Document.slotted form c) : t ∈ c.all := by
  cases form with
  | tree => exact List.mem_of_mem_filter h
  | reference => exact h
  | split => exact h

/-- **The blocks of a document** are groups of the fill statements of the entries of the tables in
the slots. -/
theorem blocks_ofBindings (H : Heap) (o : Options) (form : Form) (es : List Entry)
    (hn : c.all.Nodup) :
    ∃ xss : List (List (TableId × Entry)), xss.flatten = slotEntries H (Document.slotted form c) ∧
      (Document.ofBindings H o form c es).blocks =
        xss.map (List.map (fillFor H (slotOf form c) o.limits.maxDepth)) := by
  have hfills := fills_eq H o.limits.maxDepth (nodup_slotted form hn)
  refine exists_groups ?_
  rw [slotOf, ← hfills]
  unfold Document.ofBindings
  dsimp only
  split
  · exact Fill.flatten_blocks ..
  · exact List.flatten_singleton

/-- Nothing in the document is too deep. -/
structure Shallow (H : Heap) (o : Options) (form : Form) (c : Census) (es : List Entry) : Prop where
  fills : ∀ x ∈ slotEntries H (Document.slotted form c),
    (termOf H (slotOf form c) o.limits.maxDepth x.2.1).isTooDeep = false ∧
      (termOf H (slotOf form c) o.limits.maxDepth x.2.2).isTooDeep = false
  bindings : ∀ e ∈ es, (termOf H (slotOf form c) o.limits.maxDepth e.1).isTooDeep = false ∧
    (termOf H (slotOf form c) o.limits.maxDepth e.2).isTooDeep = false

theorem shallow_iff (hn : c.all.Nodup) :
    (Document.ofBindings H o form c es).isTooDeep = false ↔ Shallow H o form c es := by
  obtain ⟨xss, hflat, hblocks⟩ := blocks_ofBindings H o form es hn
  have hfills : (Document.ofBindings H o form c es).blocks.any (·.any Fill.isTooDeep) = false ↔
      ∀ x ∈ slotEntries H (Document.slotted form c),
        (fillFor H (slotOf form c) o.limits.maxDepth x).isTooDeep = false := by
    rw [hblocks, ← hflat]
    simp only [List.any_eq_false, List.mem_map, List.mem_flatten, Bool.not_eq_true]
    constructor
    · rintro h x ⟨xs, hxs, hx⟩
      exact h _ ⟨xs, hxs, rfl⟩ _ (List.mem_map_of_mem hx)
    · rintro h _ ⟨xs, hxs, rfl⟩ f hf
      obtain ⟨x, hx, rfl⟩ := List.mem_map.1 hf
      exact h x ⟨xs, hxs, hx⟩
  unfold Document.isTooDeep
  rw [Bool.or_eq_false_iff, hfills]
  constructor
  · rintro ⟨h₁, h₂⟩
    refine ⟨fun x hx => Bool.or_eq_false_iff.1 (h₁ x hx), fun e he => ?_⟩
    have := List.any_eq_false.1 h₂ (bindingOf H (slotOf form c) o.limits.maxDepth e)
      (List.mem_map_of_mem he)
    exact Bool.or_eq_false_iff.1 (Bool.not_eq_true _ ▸ this)
  · rintro ⟨h₁, h₂⟩
    refine ⟨fun x hx => Bool.or_eq_false_iff.2 (h₁ x hx), List.any_eq_false.2 fun b hb => ?_⟩
    obtain ⟨e, he, rfl⟩ := List.mem_map.1 hb
    exact Bool.eq_false_iff.1 (Bool.or_eq_false_iff.2 (h₂ e he))

/-- **A document in which nothing is too deep is writable.** -/
theorem writable_ofBindings (hn : c.all.Nodup) (hlen : (Document.slotted form c).length < 2 ^ 63)
    (h : Shallow H o form c es) : (Document.ofBindings H o form c es).Writable := by
  obtain ⟨xss, hflat, hblocks⟩ := blocks_ofBindings H o form es hn
  have hslot (t : TableId) (i : Nat) (ht : slotOf form c t = some i) :
      1 ≤ i ∧ i ≤ (Document.slotted form c).length := (slotIn?_eq_some ht).1
  refine ⟨hlen, ?_, ?_⟩
  · rw [hblocks]
    intro block hb f hf
    obtain ⟨xs, hxs, rfl⟩ := List.mem_map.1 hb
    obtain ⟨x, hx, rfl⟩ := List.mem_map.1 hf
    have hmem : x ∈ slotEntries H (Document.slotted form c) := by
      rw [← hflat]
      exact List.mem_flatten.2 ⟨xs, hxs, hx⟩
    obtain ⟨hk, hv⟩ := h.fills x hmem
    refine ⟨?_, writable_termOf hslot hk, writable_termOf hslot hv⟩
    obtain ⟨t, ht, hx'⟩ := List.mem_flatMap.1 hmem
    obtain ⟨e, -, rfl⟩ := List.mem_map.1 hx'
    obtain ⟨i, hi⟩ := Option.isSome_iff_exists.1 (isSome_slotIn?.2 ht)
    have hi : slotOf form c t = some i := hi
    show 1 ≤ (slotOf form c t).getD 0 ∧ (slotOf form c t).getD 0 ≤ _
    rw [hi]
    exact hslot t i hi
  · intro b hb
    obtain ⟨e, he, rfl⟩ := List.mem_map.1 hb
    obtain ⟨hk, hv⟩ := h.bindings e he
    exact ⟨writable_termOf hslot hk, writable_termOf hslot hv⟩

end

end LuaGraph
