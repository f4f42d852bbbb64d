import LuaGraph.Proofs.Graph.Calm
import LuaGraph.Proofs.Graph.Depth
import LuaGraph.Proofs.Graph.Preorder

/-!
# Sharing is found exactly

A census of some values finds the tables that can be reached from them and how often each of them is
met. Those that are met more than once get a slot. Every cycle goes through a slot, so what has no
slot is written out where it stands, once, and nested no deeper than there are tables.

To go on from a table its entries are sorted (`ordered_entries`), so a census panics where that
does.

Results:
* **`exact_ofValues`**: what a census knows, where there is one, and that a stack (`visit`) comes to
  the same end.
* `ofValues?_panics`: there need not be one.
-/

namespace LuaGraph

namespace Census

/-- **What a census of some values is to know.** Entries with a handle as their key do not count,
so `below` leaves them out. -/
structure Exact (H : Heap) (vs : List Value) (c : Census) : Prop where
  /-- The tables found are those that the values lead to. -/
  mem_all : ∀ t, t ∈ c.all ↔ Reach H.below (vs.filterMap Value.table?) t
  nodup : c.all.Nodup
  /-- They are found depth first, in the order in which entries are written. -/
  preorder : ∀ ts, DepthFirst H.children [] (vs.filterMap Value.table?) ts ↔ ts = c.all
  /-- A table counts wherever it stands among the values or in a table found. -/
  count : ∀ t, c.count t = (vs.filterMap Value.table?).count t + (c.all.flatMap H.below).count t
  repeats : c.repeats = true ↔ ∃ t, 1 < c.count t
  /-- The tables that are met more than once have a slot. -/
  slotted : ∀ t, (Document.slotIn? c.shared t).isSome = true ↔ 1 < c.count t
  /-- Slots are numbered from one, in the order of discovery. -/
  numbers : c.shared.map (Document.slotIn? c.shared) = (List.range' 1 c.shared.length).map some
  discovery : c.shared.Sublist c.all
  /-- Every cycle goes through a slot. -/
  cycles : ∀ t ∈ c.all, ∀ path : List TableId,
    List.IsChain (fun u w => w ∈ H.below u) (t :: (path ++ [t])) →
      ∃ u ∈ t :: path, (Document.slotIn? c.shared u).isSome = true
  /-- A table without a slot stands in one place. -/
  places : ∀ t ∈ c.all, Document.slotIn? c.shared t = none →
    (vs.filterMap Value.table?).count t + (c.all.flatMap H.below).count t = 1
  /-- A depth of as many tables as there are is enough. -/
  shallow : ∀ depth, H.size ≤ depth → ∀ v ∈ writtenValues H c.shared vs,
    (termOf H (Document.slotIn? c.shared) depth v).isTooDeep = false
  /-- The constructors in what is written are those of the tables without a slot, one for each. -/
  constructors : ∀ depth, (∀ v ∈ writtenValues H c.shared vs,
      (termOf H (Document.slotIn? c.shared) depth v).isTooDeep = false) →
    (vs.flatMap (fun v => (termOf H (Document.slotIn? c.shared) depth v).bodies) ++
      (Document.fills H.listing (termOf H (Document.slotIn? c.shared) depth) c.shared).flatMap
        fun f => f.key.bodies ++ f.value.bodies).Perm
      ((c.all.filter fun t => t ∉ c.shared).map fun t =>
        Term.fieldsOf (termOf H (Document.slotIn? c.shared) depth) (H.listing t))

variable {H : Heap} {vs : List Value}

/-- A census where no sort panics. -/
theorem exact_of_visits (h : H.WellFormed) (hvs : ∀ v ∈ vs, v.InHeap H) :
    Exact H vs (ofValues H vs) := by
  have hsound := sound_ofValues h hvs
  have hbelow (t : TableId) := Heap.perm_children h t
  have hcount (t : TableId) : (ofValues H vs).count t = (vs.filterMap Value.table?).count t +
      ((ofValues H vs).all.flatMap H.below).count t := by
    have hperm : ((ofValues H vs).all.flatMap H.children).Perm
        ((ofValues H vs).all.flatMap H.below) := List.Perm.flatMap_left _ fun t _ => hbelow t
    rw [count_eq h hvs, hperm.count_eq]
  have hslotted (t : TableId) : (Document.slotIn? (ofValues H vs).shared t).isSome = true ↔
      1 < (ofValues H vs).count t := by
    rw [isSome_slotIn?, shared, List.mem_filter, decide_eq_true_eq]
    refine and_iff_right_of_imp fun hlt => ?_
    exact Decidable.byContradiction fun ht => by
      rw [hsound.count_eq_zero ht] at hlt
      exact absurd hlt (Nat.not_lt_zero 1)
  have hpreorder := preorder_ofValues h hvs
  have hslots : Document.slotted .tree (ofValues H vs) = (ofValues H vs).shared := rfl
  refine ⟨fun t => ?_, hsound.nodup,
    fun ts => ⟨fun hts => hts.functional hpreorder, fun heq => heq ▸ hpreorder⟩, hcount,
    hsound.repeats, hslotted, map_slotIn?_self (hsound.nodup.filter _), List.filter_sublist,
    fun t ht path hcycle => ?_, fun t ht hslot => ?_,
    fun depth hle => shallow_ofValues h hvs hslots hle, fun depth hdeep => ?_⟩
  · exact (mem_all_iff h hvs).trans (reach_children_iff h)
  · obtain ⟨u, hu, hlt⟩ := exists_count_of_cycle h hvs ht
      (hcycle.imp fun u w hw => (hbelow u).mem_iff.2 hw)
    exact ⟨u, hu, (hslotted u).2 hlt⟩
  · have hpos := (hsound.pos t (hsound.lt t ht)).2 ht
    have hle : ¬1 < (ofValues H vs).count t := fun hlt => by
      have hsome := (hslotted t).2 hlt
      rw [hslot] at hsome
      cases hsome
    rw [← hcount]
    omega
  · rw [flatMap_bodies_fills, ← List.flatMap_append]
    exact perm_constructors h hvs hslots hdeep

/-- **A census is exact**, and a stack of values takes one value after the other to it. There is
none exactly where it would come to a table whose sort panics, which it does not without NaN under
several table keys. -/
theorem exact_ofValues (h : H.WellFormed) (hvs : ∀ v ∈ vs, v.InHeap H) :
    (∀ c, ofValues? H vs = some c → Exact H vs c ∧ (∀ t ∈ c.all, H.Listed t) ∧
      ∀ v, v.InHeap H → ∀ c', ofValues? H (vs ++ [v]) = some c' →
        ∃ k, (turn H.children)^[k] (c, [v]) = (c', [])) ∧
    (ofValues? H vs = none ↔
      ∃ t, Reach H.below (vs.filterMap Value.table?) t ∧ ¬H.Listed t) ∧
    ((∀ t, Reach H.below (vs.filterMap Value.table?) t → H.Calm t) →
      (ofValues? H vs).isSome) := by
  refine ⟨fun c hc => ?_, ?_, fun hcalm => ?_⟩
  · obtain ⟨rfl, hlisted⟩ := (ofValues?_eq_some_iff h hvs).1 hc
    refine ⟨exact_of_visits h hvs, fun t ht => hlisted t ((mem_all_iff h hvs).1 ht),
      fun v hv c' hc' => ?_⟩
    have hvs' : ∀ w ∈ vs ++ [v], w.InHeap H :=
      List.forall_mem_append.2 ⟨hvs, List.forall_mem_singleton.2 hv⟩
    obtain ⟨rfl, -⟩ := (ofValues?_eq_some_iff h hvs').1 hc'
    exact turns_ofValues h hvs hv
  · simp only [ofValues?_eq_none_iff h hvs, reach_children_iff h]
  · have hlisted (t : TableId) (ht : Reach H.children (vs.filterMap Value.table?) t) :
        H.Listed t := Heap.listed_of_calm h hcalm ((reach_children_iff h).1 ht)
    rw [(ofValues?_eq_some_iff h hvs).2 ⟨rfl, hlisted⟩]
    rfl

/-- A ring of three tables, with a table under a table key beside it. -/
def ring : Heap where
  tables := #[⟨[(.string "next", .table 1)], 0⟩, ⟨[(.string "next", .table 2)], 0⟩,
    ⟨[(.string "next", .table 0), (.table 3, .table 4)], 0⟩, {}, {}]

theorem exact_ring :
    ring.WellFormed ∧ (∀ v ∈ [Value.string "x", .table 1, .table 4], v.InHeap ring) ∧
      ∃ c, ofValues? ring [.string "x", .table 1, .table 4] = some c ∧
        Exact ring [.string "x", .table 1, .table 4] c ∧
        c.all = [1, 2, 0, 3, 4] ∧ c.shared = [1, 4] := by
  have hall : ring.WellFormed ∧
      (ofValues? ring [.string "x", .table 1, .table 4]).map (fun c => (c.all, c.shared)) =
        some ([1, 2, 0, 3, 4], [1, 4]) := by decide +kernel
  obtain ⟨hwf, hfound⟩ := hall
  have hin : ∀ v ∈ [Value.string "x", .table 1, .table 4], v.InHeap ring := by
    intro v hv t ht
    subst ht
    have ht : t = 1 ∨ t = 4 := by simpa using hv
    rcases ht with rfl | rfl <;> decide
  obtain ⟨c, hc, heq⟩ := Option.map_eq_some_iff.1 hfound
  obtain ⟨hfound, hshared⟩ := Prod.mk.inj heq
  exact ⟨hwf, hin, c, hc, ((exact_ofValues hwf hin).1 c hc).1, hfound, hshared⟩

/-- **A census panics** where it comes to a table whose sort does. -/
theorem ofValues?_panics :
    Heap.unsettled.WellFormed ∧ (∀ v ∈ [Value.table 1], v.InHeap Heap.unsettled) ∧
      (ofValues? Heap.unsettled [.table 1]).isNone := by
  have hin : ∀ v ∈ [Value.table 1], v.InHeap Heap.unsettled := by
    intro v hv t ht
    obtain rfl := List.mem_singleton.1 hv
    obtain rfl := Value.table.inj ht
    decide
  refine ⟨Heap.wellFormed_unsettled, hin, ?_⟩
  rw [(ofValues?_eq_none_iff Heap.wellFormed_unsettled hin).2
    ⟨1, .root (List.mem_singleton_self 1), Heap.not_listed_unsettled⟩]
  rfl

end Census

end LuaGraph
