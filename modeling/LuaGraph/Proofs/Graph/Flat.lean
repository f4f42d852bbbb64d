import LuaGraph.Proofs.Chunk.Literals
import LuaGraph.Proofs.Graph.Saved

/-!
# Flat documents

Beyond the tree form every table that can be reached has a slot (`force_all_shared`). So no
statement holds a table that is written out: keys and values are atoms and slots, each of them one
literal at most and three levels at most, and no depth is ever exceeded.

Results: `flat_ofBindings`, `Flat.isTooDeep`, and the bounds of a flat statement.
-/

namespace LuaGraph

open Chunk

/-! ## Flat terms -/

namespace Term

/-- Nothing is written out: the term is an atom or a slot. -/
inductive Flat : Term → Prop
  | atom (a : Atom) : Flat (atom a)
  | slot (i : Nat) : Flat (slot i)

namespace Flat

variable {t : Term}

theorem isTooDeep (h : t.Flat) : t.isTooDeep = false := by
  cases h <;> rfl

theorem literals_le (h : t.Flat) : t.literals ≤ 1 := by
  cases h with
  | atom a => cases a <;> simp [Term.literals, Atom.literals]
  | slot i => exact Nat.le_refl 1

theorem height_le (h : t.Flat) : t.height ≤ 3 := by
  cases h with
  | slot i => exact Nat.le_succ 2
  | atom a =>
    cases a with
    | number n =>
      show n.spelling.height ≤ 3
      cases n.spelling with
      | literal neg c => cases neg <;> simp [Spelling.height]
      | operation neg left op right => exact Nat.le_refl 3
    | _ => exact Nat.succ_le_succ (Nat.zero_le 2)

end Flat

end Term

/-! ## Flat statements -/

/-- No table is written out in the statement. -/
structure Fill.Flat (f : Fill) : Prop where
  key : f.key.Flat
  value : f.value.Flat

/-- No table is written out in the binding. -/
structure Binding.Flat (b : Binding) : Prop where
  key : b.key.Flat
  value : b.value.Flat

/-- A flat fill statement holds the literal of its slot and one each for its key and its value, at
most. -/
theorem Fill.Flat.literals_le {f : Fill} (h : f.Flat) : f.literals ≤ 3 := by
  have hkey := h.key.literals_le
  have hvalue := h.value.literals_le
  unfold Fill.literals
  omega

theorem Fill.Flat.height_le {f : Fill} (h : f.Flat) : f.height ≤ 3 :=
  Nat.max_le.2 ⟨h.key.height_le, h.value.height_le⟩

theorem Binding.Flat.literals_le {b : Binding} (h : b.Flat) :
    b.key.literals + b.value.literals ≤ 2 :=
  Nat.add_le_add h.key.literals_le h.value.literals_le

theorem Binding.Flat.height_le {b : Binding} (h : b.Flat) : b.height ≤ 3 :=
  Nat.max_le.2 ⟨h.key.height_le, h.value.height_le⟩

/-! ## Flat documents -/

/-- No table is written out in the document. -/
structure Document.Flat (d : Document) : Prop where
  fills : ∀ block ∈ d.blocks, ∀ f ∈ block, f.Flat
  bindings : ∀ b ∈ d.bindings, b.Flat

namespace Document.Flat

variable {d : Document}

/-- **Nothing in a flat document is too deep**, whatever the depth. -/
theorem isTooDeep (h : d.Flat) : d.isTooDeep = false := by
  refine Bool.or_eq_false_iff.2 ⟨List.any_eq_false.2 fun block hb => ?_,
    List.any_eq_false.2 fun b hb => ?_⟩
  · refine Bool.eq_false_iff.1 (List.any_eq_false.2 fun f hf => ?_)
    have hflat := h.fills block hb f hf
    exact Bool.eq_false_iff.1 (Bool.or_eq_false_iff.2 ⟨hflat.key.isTooDeep, hflat.value.isTooDeep⟩)
  · have hflat := h.bindings b hb
    exact Bool.eq_false_iff.1 (Bool.or_eq_false_iff.2 ⟨hflat.key.isTooDeep, hflat.value.isTooDeep⟩)

/-- Five levels are enough for a flat document: three for a term, and two for the function block
around it. -/
theorem within (h : d.Flat) {levels : Nat} (hl : 5 ≤ levels) : d.Within levels where
  preamble _ := Nat.le_trans (by decide) hl
  blocks _ _ := Nat.le_trans (by decide) hl
  fills block hb f hf := by
    have := (h.fills block hb f hf).height_le
    split <;> omega
  bindings b hb := Nat.le_trans (h.bindings b hb).height_le (Nat.le_trans (by decide) hl)

end Document.Flat

/-! ## Documents beyond the tree form -/

section

variable {H : Heap} {o : Options} {form : Form} {es : List Entry}

/-- The term of a value whose table has a slot is flat. -/
theorem flat_termOf {slots : List TableId} {depth : Nat} {v : Value}
    (h : ∀ t, v = .table t → t ∈ slots) : (termOf H (Document.slotIn? slots) depth v).Flat := by
  cases hv : v.view with
  | inl a =>
    rw [termOf_atom hv]
    exact .atom a
  | inr t =>
    cases v with
    | table u =>
      obtain ⟨i, hi⟩ := Option.isSome_iff_exists.1 (isSome_slotIn?.2 (h u rfl))
      rw [termOf_slot hi]
      exact .slot i
    | _ => cases hv

theorem slotted_eq_all {c : Census} (hform : form ≠ .tree) : Document.slotted form c = c.all := by
  cases form with
  | tree => exact absurd rfl hform
  | reference => rfl
  | split => rfl

variable (h : H.WellFormed) (hin : ∀ e ∈ es, e.1.InHeap H ∧ e.2.InHeap H) (hform : form ≠ .tree)
include h hin hform

/-- **Beyond the tree form a document is flat.** -/
theorem flat_ofBindings : (Document.ofBindings H o form (Save.censusOf H es) es).Flat := by
  have hfound {t : TableId} := mem_censusOf_iff (t := t) h hin
  have hslotted := slotted_eq_all (c := Save.censusOf H es) hform
  obtain ⟨xss, hflat, hblocks⟩ := blocks_ofBindings H o form es (sound_censusOf h hin).nodup
  constructor
  · rw [hblocks]
    intro block hb f hf
    obtain ⟨xs, hxs, rfl⟩ := List.mem_map.1 hb
    obtain ⟨x, hx, rfl⟩ := List.mem_map.1 hf
    have hmem : x ∈ slotEntries H (Document.slotted form (Save.censusOf H es)) :=
      hflat ▸ List.mem_flatten.2 ⟨xs, hxs, hx⟩
    obtain ⟨t, ht, hx⟩ := List.mem_flatMap.1 hmem
    obtain ⟨e, he, rfl⟩ := List.mem_map.1 hx
    rw [hslotted] at ht
    have hchild (u : TableId) (hu : e.1 = .table u ∨ e.2 = .table u) :
        u ∈ Document.slotted form (Save.censusOf H es) := by
      rw [hslotted]
      exact hfound.2 (.child (hfound.1 ht) (Heap.mem_children.2 ⟨e, he, hu⟩))
    exact ⟨flat_termOf fun u hu => hchild u (.inl hu), flat_termOf fun u hu => hchild u (.inr hu)⟩
  · intro b hb
    obtain ⟨e, he, rfl⟩ := List.mem_map.1 hb
    have hroot (u : TableId) (hu : e.1 = .table u ∨ e.2 = .table u) :
        u ∈ Document.slotted form (Save.censusOf H es) := by
      rw [hslotted]
      exact hfound.2 (.root (Listing.mem_tablesOf.2 ⟨e, he, hu⟩))
    exact ⟨flat_termOf fun u hu => hroot u (.inl hu), flat_termOf fun u hu => hroot u (.inr hu)⟩

/-- The document of bindings beyond the tree form is writable. -/
theorem writable_ofBindings_flat :
    (Document.ofBindings H o form (Save.censusOf H es) es).Writable := by
  have hsound := sound_censusOf h hin
  have hlength : (Document.slotted form (Save.censusOf H es)).length < 2 ^ 63 := by
    rw [slotted_eq_all hform]
    exact Nat.lt_of_le_of_lt hsound.length_le h.size
  exact writable_ofBindings hsound.nodup hlength
    ((shallow_iff hsound.nodup).1 (flat_ofBindings h hin hform).isTooDeep)

end

end LuaGraph
