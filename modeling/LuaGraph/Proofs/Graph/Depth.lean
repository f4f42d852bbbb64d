import LuaGraph.Proofs.Graph.Saved

/-!
# How deep the terms of a heap are

Where a term is cut off (`TooDeep`), as many tables are written out one inside the other as the
depth allows, and one more is to follow. In the tree form no table is written out twice, so a depth
of as many tables as there are is never too little: from there on the terms stay the same.

A term that is not cut off holds a constructor for every table that is written out in it (`bodies`),
with the terms of what that table holds.

Results: `lt_length_writtenIn`, `bodies_termOf`, **`shallow_ofValues`** and `perm_constructors`.
-/

namespace LuaGraph

/-! ## Constructors in a term -/

namespace Term

mutual

/-- The fields of every table constructor in a term, in the order of the opening braces. -/
def bodies : Term → List (List Field)
  | table fs => fs :: fieldsBodies fs
  | _ => []

/-- The fields of every table constructor inside some fields. -/
def fieldsBodies : List Field → List (List Field)
  | [] => []
  | f :: fs => fieldBodies f ++ fieldsBodies fs

/-- The fields of every table constructor inside a field. -/
def fieldBodies : Field → List (List Field)
  | .item v => bodies v
  | .pair k v => bodies k ++ bodies v

end

theorem fieldsBodies_eq (fs : List Field) : fieldsBodies fs = fs.flatMap fieldBodies := by
  induction fs with
  | nil => rfl
  | cons f fs ih => rw [fieldsBodies, List.flatMap_cons, ih]

end Term

section

variable {H : Heap} {slot? : TableId → Option Nat} {depth n : Nat} {v : Value}

/-- The constructors in the fields of a listing are those in the terms of its pairs. -/
theorem fieldsBodies_fieldsOf (l : Listing) :
    Term.fieldsBodies (Term.fieldsOf (termOf H slot? depth) l) =
      l.pairs.flatMap fun e =>
        (termOf H slot? depth e.1).bodies ++ (termOf H slot? depth e.2).bodies := by
  have hitems : (l.items.zipIdx 1).flatMap (fun x =>
      (termOf H slot? depth (.index x.2)).bodies ++ (termOf H slot? depth x.1).bodies) =
        l.items.flatMap fun v => (termOf H slot? depth v).bodies := by
    simp only [termOf_index, Term.bodies, List.nil_append]
    conv => rhs; rw [← List.zipIdx_map_fst 1 l.items, List.flatMap_map]
  rw [Term.fieldsBodies_eq, Term.fieldsOf, Listing.pairs, List.flatMap_append, List.flatMap_append,
    List.flatMap_map, List.flatMap_map, List.flatMap_map]
  exact congrArg (· ++ _) hitems.symm

/-- **A term that is not cut off has a constructor for every table that is written out in it.** -/
theorem bodies_termOf (h : (termOf H slot? depth v).isTooDeep = false) (hle : depth ≤ n) :
    (termOf H slot? depth v).bodies = (writtenIn H slot? depth v).map fun t =>
      Term.fieldsOf (termOf H slot? n) (H.listing t) := by
  induction depth, v using termOf_induction slot? with
  | atom depth v a hv =>
    rw [termOf_atom hv, writtenIn_atom hv]
    rfl
  | slot depth t i hs =>
    rw [termOf_slot hs, writtenIn_slot hs]
    rfl
  | tooDeep t hs =>
    rw [termOf_zero hs] at h
    cases h
  | table depth t hs ih =>
    have hstable : Term.fieldsOf (termOf H slot? n) (H.listing t) =
        Term.fieldsOf (termOf H slot? depth) (H.listing t) := by
      have hterm := termOf_of_le h (Nat.le_succ_of_le hle)
      rw [termOf_succ hs, termOf_succ hs] at hterm
      exact Term.table.inj hterm
    rw [termOf_succ hs] at h ⊢
    rw [writtenIn_table hs, List.map_cons, hstable, Term.bodies, fieldsBodies_fieldsOf,
      List.map_flatMap]
    refine congrArg _ (List.flatMap_congr fun e he => ?_)
    obtain ⟨hk, hv⟩ := isTooDeep_of_mem_pairs h he
    rw [ih _ hk (Nat.le_of_succ_le hle), ih _ hv (Nat.le_of_succ_le hle), writtenWith,
      List.map_append]

/-- The constructors in the fill statements of the tables in some slots. -/
theorem flatMap_bodies_fills (H : Heap) (term : Value → Term) (slots : List TableId) :
    (Document.fills H.listing term slots).flatMap (fun f => f.key.bodies ++ f.value.bodies) =
      (slots.flatMap fun t => (H.pairs t).flatMap fun e => [e.1, e.2]).flatMap
        fun v => (term v).bodies := by
  conv => rhs; rw [← List.zipIdx_map_fst 1 slots, List.flatMap_map]
  simp only [Document.fills, List.flatMap_assoc, List.flatMap_map, List.flatMap_cons,
    List.flatMap_nil, List.append_nil]
  rfl

/-! ## Depth and number of tables -/

theorem sublist_flatMap_of_mem {α β : Type} {f : α → List β} {xs : List α} {x : α}
    (hx : x ∈ xs) : (f x).Sublist (xs.flatMap f) := by
  rw [List.flatMap_def]
  exact List.sublist_flatten_of_mem (List.mem_map_of_mem hx)

/-- What is written out in place of the tables among some values is written out in their terms. -/
theorem flatMap_filterMap_table (vs : List Value) :
    (vs.filterMap Value.table?).flatMap
      (written H.children (fun t => (slot? t).isSome) depth) =
        vs.flatMap (writtenIn H slot? depth) := by
  rw [List.filterMap_eq_flatMap_toList, List.flatMap_assoc]
  rfl

/-- **A term that is cut off at some depth writes out more tables than that**, one level deeper. -/
theorem lt_length_writtenIn (h : (termOf H slot? depth v).isTooDeep = true) :
    depth < (writtenIn H slot? (depth + 1) v).length := by
  induction depth, v using termOf_induction slot? with
  | atom depth v a hv =>
    rw [termOf_atom hv] at h
    cases h
  | slot depth t i hs =>
    rw [termOf_slot hs] at h
    cases h
  | tooDeep t hs => simp [writtenIn_table hs]
  | table depth t hs ih =>
    rw [termOf_succ hs] at h
    rw [writtenIn_table hs, List.length_cons]
    refine Nat.succ_lt_succ (Nat.lt_of_not_le fun hle => ?_)
    -- otherwise no entry would be cut off
    have hshallow : Term.anyTooDeep
        (Term.fieldsOf (termOf H slot? depth) (H.listing t)) = false := by
      refine anyTooDeep_fieldsOf_iff.2 fun e he => ?_
      have hwith : (writtenWith H slot? (depth + 1) e).length ≤ depth :=
        Nat.le_trans (sublist_flatMap_of_mem he).length_le hle
      rw [writtenWith, List.length_append] at hwith
      refine ⟨Bool.eq_false_iff.2 fun hk => ?_, Bool.eq_false_iff.2 fun hv => ?_⟩
      · have hlt := ih e.1 hk
        omega
      · have hlt := ih e.2 hv
        omega
    rw [Term.isTooDeep, hshallow] at h
    cases h

end

/-! ## A depth that is enough -/

section

variable {H : Heap} {vs : List Value} {form : Form} {slots : List TableId} {depth : Nat}
  (h : H.WellFormed) (hvs : ∀ v ∈ vs, v.InHeap H)
  (hslots : Document.slotted form (Census.ofValues H vs) = slots)
include h hvs hslots

/-- **Nothing is too deep where the depth is the number of tables.** -/
theorem shallow_ofValues (hle : H.size ≤ depth) : ∀ v ∈ writtenValues H slots vs,
    (termOf H (Document.slotIn? slots) depth v).isTooDeep = false := by
  intro v hv
  refine Bool.eq_false_iff.2 fun hdeep => ?_
  have hsound := Census.sound_ofValues h hvs
  have hlt := lt_length_writtenIn hdeep
  obtain ⟨hnodup, hmem⟩ := nodup_written_ofValues h hvs hslots (depth + 1)
  rw [← filterMap_writtenValues, flatMap_filterMap_table] at hnodup hmem
  have hsub := sublist_flatMap_of_mem (f := writtenIn H (Document.slotIn? slots) (depth + 1)) hv
  have hfew := (List.subperm_of_subset (hsub.nodup hnodup)
    fun t ht => (hmem t (hsub.subset ht)).1).length_le
  have hsize := hsound.length_le
  omega

/-- **Every table without a slot has one constructor** in what is written of some values, if nothing
is too deep. -/
theorem perm_constructors
    (hdeep : ∀ v ∈ writtenValues H slots vs,
      (termOf H (Document.slotIn? slots) depth v).isTooDeep = false) :
    ((writtenValues H slots vs).flatMap fun v =>
      (termOf H (Document.slotIn? slots) depth v).bodies).Perm
        (((Census.ofValues H vs).all.filter fun t => t ∉ slots).map fun t =>
          Term.fieldsOf (termOf H (Document.slotIn? slots) depth) (H.listing t)) := by
  obtain ⟨hnodup, hmem⟩ := nodup_written_ofValues h hvs hslots depth
  have hall {t : TableId} (ht : t ∈ (Census.ofValues H vs).all) :=
    mem_written_ofValues h hvs hdeep ht
  rw [← filterMap_writtenValues, flatMap_filterMap_table] at hnodup hmem hall
  have hbodies : ((writtenValues H slots vs).flatMap fun v =>
      (termOf H (Document.slotIn? slots) depth v).bodies) =
        ((writtenValues H slots vs).flatMap
          (writtenIn H (Document.slotIn? slots) depth)).map fun t =>
            Term.fieldsOf (termOf H (Document.slotIn? slots) depth) (H.listing t) := by
    rw [List.map_flatMap]
    exact List.flatMap_congr fun v hv => bodies_termOf (hdeep v hv) (Nat.le_refl depth)
  rw [hbodies]
  refine List.Perm.map _ ((List.perm_ext_iff_of_nodup hnodup
    ((Census.sound_ofValues h hvs).nodup.filter _)).2 fun t => ?_)
  rw [List.mem_filter, decide_eq_true_eq]
  exact ⟨hmem t, fun ht => (hall ht.1).resolve_left ht.2⟩

end

end LuaGraph
