import LuaGraph.Proofs.Data.Building
import LuaGraph.Proofs.Graph.Census
import LuaGraph.Proofs.Table.Steps

/-!
# Tables that are built form a forest

While data is converted, every new table is either at hand or stands in one place of another new
table, and never in both. Every step of building keeps this, together with the well-formedness of
the heap, as long as there is room (`Sound.step`); so does every run of steps (`Sound.steps`).

Tables are *new* if their number is that of none of the tables there were at the start.
-/

namespace LuaGraph

/-! ## Scalars and keys -/

namespace Value

theorem IsScalar.table?_eq_none {v : Value} (h : v.IsScalar) : v.table? = none := by
  cases v with
  | table t => cases h.1
  | _ => rfl

theorem IsScalar.inHeap {v : Value} (h : v.IsScalar) (H : Heap) : v.InHeap H := by
  rintro t rfl
  cases h.1

theorem table?_canonical (v : Value) : v.canonical.table? = v.table? := by cases v <;> rfl

/-- A value that is no handle, and none of the first `n` tables. -/
def IsNew (n : Nat) (v : Value) : Prop := v.isHandle = false ∧ ∀ t, v = .table t → n ≤ t

theorem IsScalar.isNew {v : Value} (h : v.IsScalar) (n : Nat) : v.IsNew n :=
  ⟨h.2, fun t ht => by
    subst ht
    cases h.1⟩

theorem IsNew.canonical {v : Value} {n : Nat} (h : v.IsNew n) : v.canonical.IsNew n := by
  cases v with
  | table _ | function _ | userdata _ => exact h
  | _ => exact IsScalar.isNew ⟨rfl, rfl⟩ n

end Value

/-! ## Tables in entries -/

namespace Listing

theorem tablesOf_cons (e : Entry) (es : List Entry) :
    tablesOf (e :: es) = [e.1, e.2].filterMap Value.table? ++ tablesOf es := List.flatMap_cons

/-- Storing an entry brings in its tables, and may drop others. -/
theorem count_tablesOf_put_le (k v : Value) (es : List Entry) (u : TableId) :
    (tablesOf (Table.put k v es)).count u ≤
      ([k, v].filterMap Value.table?).count u + (tablesOf es).count u := by
  induction es with
  | nil => rw [Table.put, tablesOf_cons, List.count_append]
  | cons e es ih =>
    rw [Table.put]
    split
    · rw [tablesOf_cons, tablesOf_cons, List.count_append, List.count_append]
      dsimp only
      omega
    · rw [tablesOf_cons, tablesOf_cons, List.count_append, List.count_append]
      omega

theorem count_tablesOf_write_le (t : Table) (k v : Value) (u : TableId) :
    (tablesOf (t.write k v).entries).count u ≤
      ([k, v].filterMap Value.table?).count u + (tablesOf t.entries).count u := by
  unfold Table.write
  split
  · have hsub : (t.erase k).entries.Sublist t.entries := by
      unfold Table.erase
      split
      · exact List.eraseP_sublist
      · exact .refl _
    exact Nat.le_trans ((hsub.flatMap _).count_le u) (Nat.le_add_left ..)
  · exact count_tablesOf_put_le k v t.entries u

theorem tablesOf_eq_nil {es : List Entry} (h : ∀ e ∈ es, e.1.IsScalar ∧ e.2.IsScalar) :
    tablesOf es = [] := by
  refine List.flatMap_eq_nil_iff.2 fun e he => ?_
  rw [List.filterMap_cons, (h e he).1.table?_eq_none, List.filterMap_cons,
    (h e he).2.table?_eq_none]
  rfl

end Listing

namespace Table

/-! ## Sizes -/

theorem size_write_le (t : Table) (k v : Value) : (t.write k v).size ≤ t.size + 1 := by
  have hlength (t : Table) : t.keys.length = t.size := List.length_map ..
  unfold write
  split
  · unfold erase
    split
    · exact Nat.le_trans List.length_eraseP_le (Nat.le_succ _)
    · exact Nat.le_succ _
  · rw [← hlength, ← hlength, keys_insert]
    split
    · exact Nat.le_succ _
    · rw [List.length_append]
      exact Nat.le_refl _

/-! ## Sequences of scalars -/

theorem size_foldl_place_le_add (t : Table) (ps : List (Value × Nat)) :
    (ps.foldl place t).size ≤ t.size + ps.length := by
  induction ps generalizing t with
  | nil => exact Nat.le_refl _
  | cons p ps ih =>
    have hplace : (t.place p).size ≤ t.size + 1 := by
      unfold place
      split
      · exact Nat.le_succ _
      · rename_i hp
        have hwrite := size_write_le t (.index p.2) p.1
        rwa [write, if_neg hp] at hwrite
    have hrest := ih (t.place p)
    rw [List.foldl_cons, List.length_cons]
    omega

theorem mem_foldl_place {t : Table} {ps : List (Value × Nat)} {e : Entry}
    (h : e ∈ (ps.foldl place t).entries) :
    e ∈ t.entries ∨ ∃ p ∈ ps, e = (.index p.2, p.1) := by
  induction ps generalizing t with
  | nil => exact .inl h
  | cons p ps ih =>
    rcases ih h with he | ⟨q, hq, rfl⟩
    · unfold place at he
      split at he
      · exact .inl he
      · exact (mem_put he).symm.imp_right fun heq => ⟨p, List.mem_cons_self .., heq⟩
    · exact .inr ⟨q, List.mem_cons_of_mem _ hq, rfl⟩

theorem size_ofSequence_le (ws : List Value) : (ofSequence ws).size ≤ ws.length := by
  have hle := size_foldl_place_le_add empty (ws.zipIdx 1)
  rwa [List.length_zipIdx, show empty.size = 0 from rfl, Nat.zero_add] at hle

theorem isScalar_of_mem_ofSequence {ws : List Value} (hws : ∀ w ∈ ws, w.IsScalar) {e : Entry}
    (he : e ∈ (ofSequence ws).entries) : e.1.IsScalar ∧ e.2.IsScalar := by
  rcases mem_foldl_place he with he | ⟨p, hp, rfl⟩
  · exact absurd he List.not_mem_nil
  · exact ⟨Value.isScalar_index _, hws _ (List.fst_mem_of_mem_zipIdx hp)⟩

theorem wellFormed_ofSequence {ws : List Value} (hc : (ofSequence ws).Countable) :
    (ofSequence ws).WellFormed := wellFormed_empty.foldl_place hc

end Table

/-! ## Places -/

/-- The tables that stand as keys or values in the tables from a number on. -/
def Heap.placed (H : Heap) (n : Nat) : List TableId :=
  (List.range' n (H.size - n)).flatMap fun t => Listing.tablesOf (H.table t).entries

namespace Heap

variable {H : Heap} {n : Nat}

theorem mem_range'_size {t : Nat} : t ∈ List.range' n (H.size - n) ↔ n ≤ t ∧ t < H.size := by
  rw [List.mem_range'_1]
  omega

theorem placed_add (hn : n ≤ H.size) (t : Table) :
    (H.add t).2.placed n = H.placed n ++ Listing.tablesOf t.entries := by
  have hsize : H.size + 1 - n = H.size - n + 1 := by omega
  have hlast : n + (H.size - n) = H.size := by omega
  unfold placed
  rw [size_add, hsize, List.range'_1_concat, List.flatMap_append, hlast, List.flatMap_singleton,
    table_add, if_pos rfl]
  congr 1
  refine List.flatMap_congr fun u hu => ?_
  rw [table_add, if_neg (Nat.ne_of_lt (mem_range'_size.1 hu).2)]

/-- Where one of some different lists changes, so do the counts of all of them together. -/
theorem count_flatMap_le {f g : Nat → List TableId} {t u c : Nat} {ts : List Nat}
    (hts : ts.Nodup) (hne : ∀ s, s ≠ t → f s = g s) (ht : (f t).count u ≤ c + (g t).count u) :
    (ts.flatMap f).count u ≤ c + (ts.flatMap g).count u := by
  induction ts with
  | nil => exact Nat.zero_le _
  | cons s ts ih =>
    rw [List.nodup_cons] at hts
    rw [List.flatMap_cons, List.flatMap_cons, List.count_append, List.count_append]
    by_cases hs : s = t
    · subst hs
      rw [List.flatMap_congr fun r hr => hne r fun hrs => hts.1 (hrs ▸ hr)]
      omega
    · have hrest := ih hts.2
      rw [hne s hs]
      omega

/-- A new entry brings in its tables only. -/
theorem count_placed_write_le (t u : TableId) (k v : Value) :
    ((H.update t (·.write k v)).placed n).count u ≤
      ([k, v].filterMap Value.table?).count u + (H.placed n).count u := by
  unfold placed
  rw [size_update]
  refine count_flatMap_le (t := t) List.nodup_range' (fun s hs => ?_) ?_
  · rw [table_update, if_neg fun h => hs h.1]
  · rw [table_update]
    split
    · exact Listing.count_tablesOf_write_le (H.table t) k v u
    · exact Nat.le_add_left ..

theorem size_le_add (H : Heap) (t : Table) : H.size ≤ (H.add t).2.size :=
  Nat.le_of_lt (Nat.lt_of_lt_of_eq (Nat.lt_succ_self _) (size_add H t).symm)

/-- Writing makes a table longer by one entry at most, and no other table. -/
theorem size_table_update_write_le (H : Heap) (t u : TableId) (k v : Value) :
    ((H.update t (·.write k v)).table u).size ≤ (H.table u).size + 1 := by
  rw [table_update]
  split
  · rename_i hut
    rw [hut.1]
    exact Table.size_write_le ..
  · exact Nat.le_succ _

/-- Storing a key and a value moves their tables from the hand to a place. -/
theorem count_store_le (t u : TableId) (k v : Value) (vs : List Value) :
    (vs.filterMap Value.table?).count u +
        ((H.update t (·.write k.canonical v)).placed n).count u ≤
      ((v :: k :: vs).filterMap Value.table?).count u + (H.placed n).count u := by
  have hplaced := count_placed_write_le (H := H) (n := n) t u k.canonical v
  have hpair : ([k.canonical, v].filterMap Value.table?).count u =
      ([v, k].filterMap Value.table?).count u := by
    have hperm : ([k, v] : List Value).Perm [v, k] := .swap v k []
    rw [List.filterMap_cons, Value.table?_canonical, ← List.filterMap_cons]
    exact (hperm.filterMap _).count_eq u
  have hsplit : (v :: k :: vs).filterMap Value.table? =
      [v, k].filterMap Value.table? ++ vs.filterMap Value.table? := by
    rw [← List.filterMap_append]
    rfl
  rw [hsplit, List.count_append]
  omega

/-- A well-formed table of scalars keeps a heap well-formed. -/
theorem WellFormed.addScalars (h : H.WellFormed) {t : Table} (ht : t.WellFormed)
    (hc : t.Countable) (hs : H.size + 1 < 2 ^ 63)
    (hscalar : ∀ e ∈ t.entries, e.1.IsScalar ∧ e.2.IsScalar) : (H.add t).2.WellFormed := by
  refine ⟨fun u => ?_, fun u e he => ?_, size_add H t ▸ hs⟩
  · rw [table_add]
    split
    · exact ⟨ht, hc⟩
    · exact h.tables u
  · rw [table_add] at he
    split at he
    · exact ⟨(hscalar e he).1.inHeap _, (hscalar e he).2.inHeap _⟩
    · exact ⟨(h.closed u e he).1.mono (size_le_add H t), (h.closed u e he).2.mono (size_le_add H t)⟩

end Heap

/-! ## Stages -/

namespace Stage

/-- **What holds of a stage that is reached from a heap** when no more than `m` tables and entries
were made. -/
structure Sound (H₀ : Heap) (m : Nat) (S : Stage) : Prop where
  wellFormed : S.heap.WellFormed
  size_le : H₀.size ≤ S.heap.size
  le_size : S.heap.size ≤ H₀.size + m
  /-- The tables there were stay as they are. -/
  kept : ∀ t : Nat, t < H₀.size → S.heap.table t = H₀.table t
  small : ∀ t, H₀.size ≤ t → (S.heap.table t).size ≤ m
  hand : ∀ v ∈ S.hand, v.IsNew H₀.size ∧ v.InHeap S.heap
  entries : ∀ t, H₀.size ≤ t → ∀ e ∈ (S.heap.table t).entries,
    e.1.IsNew H₀.size ∧ e.2.IsNew H₀.size
  /-- A new table is at hand, or stands in one place. -/
  once : ∀ t, (S.hand.filterMap Value.table?).count t + (S.heap.placed H₀.size).count t ≤ 1

variable {H₀ : Heap} {m n : Nat} {S S' : Stage}

/-- A start with nothing at hand. -/
theorem Sound.start (h : H₀.WellFormed) : Sound H₀ 0 ⟨H₀, []⟩ where
  wellFormed := h
  size_le := Nat.le_refl _
  le_size := Nat.le_refl _
  kept _ _ := rfl
  small t ht := by
    rw [Heap.table_of_size_le ht]
    exact Nat.le_refl _
  hand _ hv := absurd hv List.not_mem_nil
  entries t ht e he := by
    rw [Heap.table_of_size_le ht] at he
    exact absurd he List.not_mem_nil
  once t := by
    unfold Heap.placed
    rw [Nat.sub_self]
    exact Nat.zero_le _

namespace Sound

/-- Other values at hand, with the same tables among them or fewer. -/
theorem withHand (h : Sound H₀ m S) {vs : List Value}
    (hmem : ∀ v ∈ vs, (v.IsNew H₀.size ∧ v.InHeap S.heap))
    (hcount : ∀ t, (vs.filterMap Value.table?).count t ≤ (S.hand.filterMap Value.table?).count t) :
    Sound H₀ m ⟨S.heap, vs⟩ :=
  { h with
    hand := hmem
    once := fun t => Nat.le_trans (Nat.add_le_add_right (hcount t) _) (h.once t) }

/-- What is placed has a number of the heap. -/
theorem lt_of_mem_placed (h : Sound H₀ m S) {u : TableId} (hu : u ∈ S.heap.placed H₀.size) :
    H₀.size ≤ u ∧ u < S.heap.size := by
  obtain ⟨t, ht, hu⟩ := List.mem_flatMap.1 hu
  obtain ⟨e, he, hu⟩ := Listing.mem_tablesOf.1 hu
  have hnew := h.entries t (Heap.mem_range'_size.1 ht).1 e he
  have hin := h.wellFormed.closed t e he
  exact hu.elim (fun hk => ⟨hnew.1.2 u hk, hin.1 u hk⟩) fun hv => ⟨hnew.2.2 u hv, hin.2 u hv⟩

/-- The number of the next table is neither at hand nor anywhere else. -/
theorem count_next (h : Sound H₀ m S) :
    (S.hand.filterMap Value.table?).count S.heap.size +
      (S.heap.placed H₀.size).count S.heap.size = 0 := by
  refine Nat.add_eq_zero_iff.2 ⟨List.count_eq_zero.2 fun hmem => ?_,
    List.count_eq_zero.2 fun hmem => Nat.lt_irrefl _ (h.lt_of_mem_placed hmem).2⟩
  obtain ⟨v, hv, hvt⟩ := List.mem_filterMap.1 hmem
  have hvt : v = .table S.heap.size := by cases v <;> simp_all [Value.table?]
  exact Nat.lt_irrefl _ ((h.hand v hv).2 _ hvt)

/-- A new table of scalars is at hand. -/
theorem table {H : Heap} {vs : List Value} (h : Sound H₀ m ⟨H, vs⟩) {ws : List Value}
    (hws : ∀ w ∈ ws, w.IsScalar) (hroom : H₀.size + (m + (ws.length + 1)) + 1 < 2 ^ 63) :
    Sound H₀ (m + (ws.length + 1)) ⟨(H.add (.ofSequence ws)).2, .table H.size :: vs⟩ := by
  have hscalar {e : Entry} (he : e ∈ (Table.ofSequence ws).entries) :=
    Table.isScalar_of_mem_ofSequence hws he
  have hsmall := Table.size_ofSequence_le ws
  have hc : (Table.ofSequence ws).Countable := by
    unfold Table.Countable
    omega
  have hle := h.size_le
  have hlt := h.le_size
  dsimp only at hle hlt
  refine ⟨h.wellFormed.addScalars (Table.wellFormed_ofSequence hc) hc (by dsimp only; omega)
    fun e he => hscalar he, Nat.le_trans hle (Heap.size_le_add ..), ?_, fun t ht => ?_,
    fun t ht => ?_, fun v hv => ?_, fun t ht e he => ?_, fun t => ?_⟩
  · rw [Heap.size_add]
    omega
  · rw [Heap.table_add, if_neg (Nat.ne_of_lt (Nat.lt_of_lt_of_le ht hle))]
    exact h.kept t ht
  · rw [Heap.table_add]
    split
    · omega
    · exact Nat.le_trans (h.small t ht) (Nat.le_add_right ..)
  · rcases List.mem_cons.1 hv with rfl | hv
    · refine ⟨⟨rfl, fun t ht => ?_⟩, fun t ht => ?_⟩
      · cases ht
        exact hle
      · cases ht
        rw [Heap.size_add]
        exact Nat.lt_succ_self _
    · exact ⟨(h.hand v hv).1, (h.hand v hv).2.mono (Heap.size_le_add ..)⟩
  · rw [Heap.table_add] at he
    split at he
    · exact ⟨(hscalar he).1.isNew _, (hscalar he).2.isNew _⟩
    · exact h.entries t ht e he
  · have honce := h.once t
    have hnext := h.count_next
    dsimp only at honce hnext ⊢
    rw [Heap.placed_add hle, Listing.tablesOf_eq_nil fun e he => hscalar he, List.append_nil,
      List.filterMap_cons]
    dsimp only [Value.table?]
    rw [List.count_cons]
    split
    · rename_i heq
      obtain rfl : H.size = t := eq_of_beq heq
      omega
    · exact honce

/-- A value at hand is stored under a key at hand in a table at hand. -/
theorem store {H H' : Heap} {vs : List Value} {t : TableId} {k v : Value}
    (h : Sound H₀ m ⟨H, v :: k :: .table t :: vs⟩) (hset : H.set t k v = .ok H')
    (hroom : H₀.size + (m + 1) + 1 < 2 ^ 63) : Sound H₀ (m + 1) ⟨H', .table t :: vs⟩ := by
  obtain ⟨⟨hvnew, hvin⟩, ⟨hknew, hkin⟩, ⟨htnew, -⟩, -⟩ :
      (v.IsNew H₀.size ∧ v.InHeap H) ∧ (k.IsNew H₀.size ∧ k.InHeap H) ∧
        ((Value.table t).IsNew H₀.size ∧ (Value.table t).InHeap H) ∧
          ∀ v ∈ vs, v.IsNew H₀.size ∧ v.InHeap H := by
    simpa using h.hand
  have ht : H₀.size ≤ t := htnew.2 t rfl
  have hset' := hset
  obtain ⟨-, rfl⟩ := Heap.set_eq_ok hset
  have hsize : (H.update t (·.write k.canonical v)).size = H.size := Heap.size_update ..
  have hsmall (u : TableId) (hu : H₀.size ≤ u) :
      ((H.update t (·.write k.canonical v)).table u).size ≤ m + 1 :=
    Nat.le_trans (Heap.size_table_update_write_le ..) (Nat.succ_le_succ (h.small u hu))
  have hcountable : ((H.update t (·.write k.canonical v)).table t).Countable := by
    unfold Table.Countable
    have := hsmall t ht
    omega
  refine ⟨h.wellFormed.set hkin hvin hset' hcountable, ?_, ?_, fun u hu => ?_, hsmall,
    fun w hw => ?_, fun u hu e he => ?_, fun u => ?_⟩
  · rw [hsize]
    exact h.size_le
  · rw [hsize]
    exact Nat.le_succ_of_le h.le_size
  · rw [Heap.table_update, if_neg fun hut => Nat.ne_of_lt (Nat.lt_of_lt_of_le hu ht) hut.1]
    exact h.kept u hu
  · obtain ⟨hnew, hin⟩ := h.hand w (List.mem_cons_of_mem _ (List.mem_cons_of_mem _ hw))
    exact ⟨hnew, hin.mono (Nat.le_of_eq hsize.symm)⟩
  · rw [Heap.table_update] at he
    split at he
    · rcases Table.mem_write he with rfl | he
      · exact ⟨hknew.canonical, hvnew⟩
      · exact h.entries t ht e he
    · exact h.entries u hu e he
  · exact Nat.le_trans (Heap.count_store_le ..) (h.once u)

/-- **A step of building keeps a stage sound**, if there is room for what it makes. -/
theorem step (h : Sound H₀ m S) (hstep : Step n S S')
    (hroom : H₀.size + (m + n) + 1 < 2 ^ 63) : Sound H₀ (m + n) S' := by
  cases hstep with
  | scalar hv =>
    refine h.withHand (fun w hw => ?_) fun t => ?_
    · rcases List.mem_cons.1 hw with rfl | hw
      · exact ⟨hv.isNew _, hv.inHeap _⟩
      · exact h.hand w hw
    · rw [List.filterMap_cons, hv.table?_eq_none]
  | table ws hws => exact h.table hws hroom
  | store hset => exact h.store hset hroom
  | forget =>
    refine h.withHand (fun w hw => h.hand w (List.mem_cons_of_mem _ hw)) fun t => ?_
    exact ((List.sublist_cons_self ..).filterMap _).count_le t
  | sort hperm =>
    refine h.withHand (fun w hw => h.hand w (hperm.mem_iff.2 hw)) fun t => ?_
    exact Nat.le_of_eq ((hperm.filterMap _).count_eq t).symm

/-- **Building keeps a stage sound.** -/
theorem steps (h : Sound H₀ m S) (hsteps : Steps n S S')
    (hroom : H₀.size + (m + n) + 1 < 2 ^ 63) : Sound H₀ (m + n) S' := by
  induction hsteps generalizing m with
  | nil => exact h
  | cons hstep _ ih =>
    rw [← Nat.add_assoc m] at hroom ⊢
    exact ih (h.step hstep (by omega)) hroom

end Sound

end Stage

end LuaGraph
