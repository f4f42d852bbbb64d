import LuaGraph.Heap
import Mathlib.Data.List.Nodup
import Mathlib.Data.List.Perm.Subperm

/-!
# Well-formed tables and heaps

What holds of every table that was made by writing entries (`Table::set`, `push`): its keys are
keys, each there once and with a value that is not nil, and the run ends where the first place is
missing. There are fewer entries than a place of a sequence can count, and fewer tables than a slot
can.

Results: writing keeps a table well-formed (`WellFormed.write`), and with it all changes of a heap.
-/

namespace LuaGraph

/-! ## Keys -/

namespace Number

theorem canonical_float (x : Float) :
    (float x).canonical = float x ∨ ∃ i, (float x).canonical = integer i := by
  unfold canonical
  dsimp only
  split
  · split
    · exact .inr ⟨_, rfl⟩
    · exact .inl rfl
  · exact .inl rfl

theorem canonical_canonical (n : Number) : n.canonical.canonical = n.canonical := by
  cases n with
  | integer i => rfl
  | float x =>
    rcases canonical_float x with h | ⟨i, h⟩
    · rw [h, h]
    · rw [h]
      rfl

theorem isNaN_canonical {n : Number} (h : n.isNaN = false) : n.canonical.isNaN = false := by
  cases n with
  | integer i => rfl
  | float x =>
    rcases canonical_float x with hx | ⟨i, hx⟩
    · rw [hx]
      exact h
    · rw [hx]
      rfl

end Number

namespace Value

/-- A key in canonical form. -/
def IsKey (v : Value) : Prop := v.toKey = .ok v

theorem canonical_canonical (v : Value) : v.canonical.canonical = v.canonical := by
  cases v with
  | number n => exact congrArg Value.number n.canonical_canonical
  | _ => rfl

theorem toKey_eq_ok {v k : Value} (h : v.toKey = .ok k) : k = v.canonical ∧ k.IsKey := by
  cases v with
  | nil => cases h
  | number n =>
    rw [toKey] at h
    split at h
    · cases h
    · rename_i hnan
      cases h
      refine ⟨rfl, ?_⟩
      rw [IsKey, toKey, if_neg (by rw [n.isNaN_canonical (Bool.eq_false_iff.2 hnan)]; simp),
        n.canonical_canonical]
  | _ =>
    cases h
    exact ⟨rfl, rfl⟩

namespace IsKey

variable {k : Value}

theorem canonical (h : k.IsKey) : k.canonical = k := (toKey_eq_ok h).1.symm

theorem ne_nil (h : k.IsKey) : k ≠ .nil := by
  rintro rfl
  cases h

end IsKey

theorem isKey_index (n : Nat) : (index n).IsKey := rfl

/-- The places below the largest integer differ. -/
theorem index_inj {i j : Nat} (hi : i < 2 ^ 63) (hj : j < 2 ^ 63) (h : index i = index j) :
    i = j := by
  have h : Int64.ofNat i = Int64.ofNat j := by
    simpa [index, ofInt64] using h
  have := congrArg Int64.toInt h
  rw [Int64.toInt_ofNat_of_lt hi, Int64.toInt_ofNat_of_lt hj] at this
  exact Int.ofNat.inj this

/-- A key that stands for a place is the key of that place. -/
theorem IsKey.place?_eq_some {k : Value} (h : k.IsKey) {i : Nat} (hi : k.place? = some i) :
    k = index i ∧ 1 ≤ i ∧ i < 2 ^ 63 := by
  unfold place? at hi
  cases hk : k.integer? with
  | none => simp [hk] at hi
  | some x =>
    simp only [hk] at hi
    split at hi
    · rename_i hpos
      cases hi
      have hlt := x.toInt_lt
      refine ⟨?_, by omega, by omega⟩
      cases k with
      | number n =>
        have hcanonical : n.canonical = n := by
          have : Value.number n.canonical = .number n := h.canonical
          exact Value.number.inj this
        rw [integer?, Number.toInteger?, hcanonical] at hk
        cases n with
        | integer y =>
          cases hk
          rw [index, ofInt64]
          congr 2
          apply Int64.toInt_inj.1
          rw [Int64.toInt_ofNat_of_lt (by omega)]
          omega
        | float y => cases hk
      | _ => cases hk
    · cases hi

theorem place?_index {i : Nat} (hpos : 1 ≤ i) (hi : i < 2 ^ 63) : (index i).place? = some i := by
  have : (index i).integer? = some (Int64.ofNat i) := rfl
  rw [place?, this]
  dsimp only
  rw [Int64.toInt_ofNat_of_lt hi, if_pos (by omega), Int.toNat_natCast]

end Value

/-! ## Writing entries -/

namespace Table

variable {k v : Value} {es : List Entry} {t : Table}

theorem keys_put (k v : Value) (es : List Entry) : (put k v es).map Prod.fst =
    if k ∈ es.map Prod.fst then es.map Prod.fst else es.map Prod.fst ++ [k] := by
  induction es with
  | nil => rfl
  | cons e es ih =>
    rw [put]
    by_cases he : e.1 = k
    · simp [he]
    · rw [if_neg he, List.map_cons, List.map_cons, ih]
      have : ¬k = e.1 := fun h => he h.symm
      by_cases hk : k ∈ es.map Prod.fst <;> simp [hk, this]

/-- A new key comes last. -/
theorem put_of_notMem (h : k ∉ es.map Prod.fst) (v : Value) : put k v es = es ++ [(k, v)] := by
  induction es with
  | nil => rfl
  | cons e es ih =>
    simp only [List.map_cons, List.mem_cons, not_or] at h
    rw [put, if_neg (fun he => h.1 he.symm), ih h.2, List.cons_append]

theorem mem_put {e : Entry} (h : e ∈ put k v es) : e = (k, v) ∨ e ∈ es := by
  induction es with
  | nil => exact .inl (List.mem_singleton.1 h)
  | cons e' es ih =>
    rw [put] at h
    split at h
    · exact (List.mem_cons.1 h).imp id (List.mem_cons_of_mem _)
    · rcases List.mem_cons.1 h with rfl | h
      · exact .inr (List.mem_cons_self ..)
      · exact (ih h).imp id (List.mem_cons_of_mem _)

theorem isSome_lookup : (es.lookup k).isSome = true ↔ k ∈ es.map Prod.fst := by
  rw [List.lookup_isSome_iff, List.mem_map]
  constructor
  · rintro ⟨e, he, hk⟩
    exact ⟨e, he, (eq_of_beq hk).symm⟩
  · rintro ⟨e, he, rfl⟩
    exact ⟨e, he, beq_self_eq_true _⟩

/-- Where keys differ, every entry is found under its own. -/
theorem lookup_of_mem (hn : (es.map Prod.fst).Nodup) {e : Entry} (he : e ∈ es) :
    es.lookup e.1 = some e.2 := by
  induction es with
  | nil => exact absurd he List.not_mem_nil
  | cons e' es ih =>
    rw [List.map_cons, List.nodup_cons] at hn
    rcases List.mem_cons.1 he with rfl | he
    · exact List.lookup_cons_self
    · have hne : e.1 ≠ e'.1 := by
        intro heq
        exact hn.1 (heq ▸ List.mem_map_of_mem he)
      rw [List.lookup_cons, beq_false_of_ne hne]
      exact ih hn.2 he

theorem contains_eq (h : k.IsKey) (t : Table) : t.contains k = decide (k ∈ t.keys) := by
  unfold contains get? keys
  rw [h.canonical, Bool.eq_iff_iff, isSome_lookup, decide_eq_true_iff]

theorem keys_insert (t : Table) (k v : Value) :
    (t.insert k v).keys = if k ∈ t.keys then t.keys else t.keys ++ [k] :=
  keys_put k v t.entries

theorem keys_erase (h : k.IsKey) (t : Table) : (t.erase k).keys = t.keys.erase k := by
  unfold erase
  rw [contains_eq h]
  split
  · unfold keys
    dsimp only
    induction t.entries with
    | nil => rfl
    | cons e es ih =>
      rw [List.map_cons, List.erase_cons]
      by_cases he : e.1 = k
      · rw [List.eraseP_cons_of_pos (by simp [he]), if_pos (by simp [he])]
      · rw [List.eraseP_cons_of_neg (by simp [he]), if_neg (by simp [he]), List.map_cons, ih]
  · rename_i hk
    rw [List.erase_of_not_mem (by simpa using hk)]

theorem mem_keys_insert {k' : Value} : k' ∈ (t.insert k v).keys ↔ k' ∈ t.keys ∨ k' = k := by
  rw [keys_insert]
  split
  · rename_i hk
    exact ⟨.inl, fun h => h.elim id fun heq => heq ▸ hk⟩
  · simp

theorem nodup_keys_insert (h : t.keys.Nodup) : (t.insert k v).keys.Nodup := by
  rw [keys_insert]
  split
  · exact h
  · rename_i hnot
    exact h.append (List.nodup_singleton k) (List.disjoint_singleton.2 hnot)

theorem mem_keys_erase (h : k.IsKey) (hnodup : t.keys.Nodup) {k' : Value} :
    k' ∈ (t.erase k).keys ↔ k' ≠ k ∧ k' ∈ t.keys := by
  rw [keys_erase h]
  exact hnodup.mem_erase_iff

theorem mem_of_mem_erase {e : Entry} (h : e ∈ (t.erase k).entries) : e ∈ t.entries := by
  rw [Table.erase] at h
  split at h
  · exact List.mem_of_mem_eraseP h
  · exact h

/-- Writing brings in no entry but the written one. -/
theorem mem_write {e : Entry} (h : e ∈ (t.write k v).entries) : e = (k, v) ∨ e ∈ t.entries := by
  unfold write at h
  split at h
  · exact .inr (mem_of_mem_erase h)
  · exact mem_put h

/-- Removing a place of the run cuts it there. -/
theorem run_erase (h : k.IsKey) (hk : k ∈ t.keys) :
    (t.erase k).run = match k.place? with
      | some i => if i ≤ t.run then i - 1 else t.run
      | none => t.run := by
  unfold Table.erase
  rw [contains_eq h, decide_eq_true hk]
  rfl

/-- A key that is missing stays so when it is removed. -/
theorem erase_of_notMem (h : k.IsKey) (hk : k ∉ t.keys) : t.erase k = t := by
  rw [erase, contains_eq h, decide_eq_false hk, if_neg Bool.false_ne_true]

/-- What is stored in a table without entries is its only entry, and nil is none. -/
theorem entries_write_empty (k v : Value) :
    (empty.write k v).entries = if v = .nil then [] else [(k, v)] := by
  unfold write
  split <;> rfl

/-! ## Well-formed tables -/

/-- What holds of every table that was made by writing entries. -/
structure WellFormed (t : Table) : Prop where
  isKey : ∀ k ∈ t.keys, k.IsKey
  ne_nil : ∀ e ∈ t.entries, e.2 ≠ .nil
  nodup : t.keys.Nodup
  /-- All the places of the run are there. -/
  present : ∀ i, 1 ≤ i → i ≤ t.run → Value.index i ∈ t.keys
  /-- The place after the run is missing. -/
  absent : Value.index (t.run + 1) ∉ t.keys

/-- The places in the entries can be counted. -/
def Countable (t : Table) : Prop := t.size + 1 < 2 ^ 63

instance (t : Table) : Decidable t.Countable := inferInstanceAs (Decidable (_ < _))

/-- Whether a table is well-formed can be computed. -/
instance (t : Table) : Decidable t.WellFormed :=
  decidable_of_iff ((∀ k ∈ t.keys, k.toKey = .ok k) ∧ (∀ e ∈ t.entries, e.2 ≠ .nil) ∧
    t.keys.Nodup ∧ (∀ i < t.run, Value.index (i + 1) ∈ t.keys) ∧
      Value.index (t.run + 1) ∉ t.keys)
    ⟨fun ⟨h₁, h₂, h₃, h₄, h₅⟩ => ⟨h₁, h₂, h₃, fun i hpos hi => by
        have := h₄ (i - 1) (by omega)
        rwa [Nat.sub_add_cancel hpos] at this, h₅⟩,
      fun h => ⟨h.isKey, h.ne_nil, h.nodup, fun i hi => h.present (i + 1) (by omega) (by omega),
        h.absent⟩⟩

/-- A table is no smaller than the number of places that it starts with. -/
theorem le_size_of_places {m : Nat} (hm : m < 2 ^ 63)
    (h : ∀ i, 1 ≤ i → i ≤ m → Value.index i ∈ t.keys) : m ≤ t.size := by
  have hnodup : ((List.range m).map fun i => Value.index (i + 1)).Nodup := by
    refine List.Nodup.map_on ?_ List.nodup_range
    intro i hi j hj hij
    rw [List.mem_range] at hi hj
    have := Value.index_inj (by omega) (by omega) hij
    omega
  have hsub : (List.range m).map (fun i => Value.index (i + 1)) ⊆ t.keys := by
    intro k hk
    obtain ⟨i, hi, rfl⟩ := List.mem_map.1 hk
    rw [List.mem_range] at hi
    exact h (i + 1) (by omega) (by omega)
  have := (List.subperm_of_subset hnodup hsub).length_le
  rwa [List.length_map, List.length_range, keys, List.length_map] at this

theorem wellFormed_empty : empty.WellFormed where
  isKey _ h := absurd h List.not_mem_nil
  ne_nil _ h := absurd h List.not_mem_nil
  nodup := .nil
  present _ h h' := absurd (Nat.le_trans h h') (by decide)
  absent := List.not_mem_nil

namespace WellFormed

/-- The run is no longer than the table. -/
theorem run_le (h : t.WellFormed) (hc : t.Countable) : t.run ≤ t.size := by
  unfold Countable at hc
  have hle : min t.run (t.size + 1) ≤ t.size :=
    le_size_of_places (by omega) fun i hpos hi => h.present i hpos (by omega)
  omega

/-- A place is in the run exactly if all places up to it are there. -/
theorem le_run_iff (h : t.WellFormed) {n : Nat} :
    n ≤ t.run ↔ ∀ i, 1 ≤ i → i ≤ n → Value.index i ∈ t.keys := by
  constructor
  · intro hn i hpos hi
    exact h.present i hpos (Nat.le_trans hi hn)
  · intro hn
    refine Nat.le_of_not_lt fun hlt => h.absent ?_
    exact hn (t.run + 1) (by omega) hlt

theorem isKey_of_mem (h : t.WellFormed) {e : Entry} (he : e ∈ t.entries) : e.1.IsKey :=
  h.isKey e.1 (List.mem_map_of_mem he)

/-- The value of an entry is found under its key. -/
theorem get_of_mem (h : t.WellFormed) {e : Entry} (he : e ∈ t.entries) : t.get e.1 = e.2 := by
  rw [get, get?, (h.isKey_of_mem he).canonical, lookup_of_mem h.nodup he,
    Option.getD_some]

end WellFormed

/-! ## Keeping the run -/

/-- The run goes on over present places, and stops at a missing one or when its steps are over. -/
theorem runFrom_spec (es : List Entry) (steps n : Nat) :
    n ≤ runFrom es steps n ∧
      (∀ i, n < i → i ≤ runFrom es steps n → Value.index i ∈ es.map Prod.fst) ∧
      (Value.index (runFrom es steps n + 1) ∉ es.map Prod.fst ∨
        runFrom es steps n = n + steps) := by
  induction steps generalizing n with
  | zero => exact ⟨Nat.le_refl _, fun i h h' => absurd h (Nat.not_lt.2 h'), .inr rfl⟩
  | succ steps ih =>
    rw [runFrom]
    split
    · rename_i hnext
      obtain ⟨h₁, h₂, h₃⟩ := ih (n + 1)
      refine ⟨by omega, fun i hi hi' => ?_, h₃.imp id (by omega)⟩
      rcases Nat.eq_or_lt_of_le hi with rfl | hi
      · exact isSome_lookup.1 hnext
      · exact h₂ i hi hi'
    · rename_i hnext
      exact ⟨Nat.le_refl _, fun i h h' => absurd h (Nat.not_lt.2 h'),
        .inl fun h => hnext (isSome_lookup.2 h)⟩

namespace WellFormed

/-- The run is kept when an entry is stored: a key right after it extends it as far as it goes. -/
theorem run_insert (h : t.WellFormed) (hc : (t.insert k v).Countable) :
    (∀ i, 1 ≤ i → i ≤ (t.insert k v).run → Value.index i ∈ (t.insert k v).keys) ∧
      Value.index ((t.insert k v).run + 1) ∉ (t.insert k v).keys := by
  have hold (i : Nat) (hpos : 1 ≤ i) (hi : i ≤ t.run) : Value.index i ∈ (t.insert k v).keys :=
    mem_keys_insert.2 (.inl (h.present i hpos hi))
  by_cases hnext : k = Value.index (t.run + 1)
  · have hrun : (t.insert k v).run =
        runFrom (put k v t.entries) ((t.insert k v).size - (t.run + 1)) (t.run + 1) :=
      if_pos hnext
    obtain ⟨hle, hover, hstop⟩ := runFrom_spec (put k v t.entries)
      ((t.insert k v).size - (t.run + 1)) (t.run + 1)
    rw [← hrun] at hle hover hstop
    have hpresent (i : Nat) (hpos : 1 ≤ i) (hi : i ≤ (t.insert k v).run) :
        Value.index i ∈ (t.insert k v).keys := by
      rcases Nat.lt_trichotomy i (t.run + 1) with hlt | rfl | hlt
      · exact hold i hpos (Nat.le_of_lt_succ hlt)
      · exact mem_keys_insert.2 (.inr hnext.symm)
      · exact hover i hlt hi
    refine ⟨hpresent, hstop.elim id fun hall hmem => ?_⟩
    -- the run used up all its steps, and would be longer than the table
    unfold Countable at hc
    have hplaces : (t.insert k v).size + 1 ≤ (t.insert k v).size := by
      refine le_size_of_places hc fun i hpos hi => ?_
      rcases Nat.lt_or_ge (t.insert k v).run i with hlt | hge
      · obtain rfl : i = (t.insert k v).run + 1 := by omega
        exact hmem
      · exact hpresent i hpos hge
    omega
  · have hrun : (t.insert k v).run = t.run := if_neg hnext
    rw [hrun]
    refine ⟨hold, fun hmem => ?_⟩
    exact (mem_keys_insert.1 hmem).elim h.absent fun heq => hnext heq.symm

theorem insert (h : t.WellFormed) (hk : k.IsKey) (hv : v ≠ .nil)
    (hc : (t.insert k v).Countable) : (t.insert k v).WellFormed where
  isKey k' h' := (mem_keys_insert.1 h').elim (h.isKey k') fun heq => heq ▸ hk
  ne_nil e he := (mem_put he).elim (fun heq => heq ▸ hv) (h.ne_nil e)
  nodup := nodup_keys_insert h.nodup
  present := (h.run_insert hc).1
  absent := (h.run_insert hc).2

/-- The run is kept when an entry is removed. -/
theorem run_erase (h : t.WellFormed) (hk : k.IsKey) (hmem : k ∈ t.keys) (hc : t.Countable) :
    (∀ i, 1 ≤ i → i ≤ (t.erase k).run → Value.index i ∈ (t.erase k).keys) ∧
      Value.index ((t.erase k).run + 1) ∉ (t.erase k).keys := by
  have hlt : t.run < 2 ^ 63 := by
    have := h.run_le hc
    unfold Countable at hc
    omega
  have hkeys (k' : Value) : k' ∈ (t.erase k).keys ↔ k' ≠ k ∧ k' ∈ t.keys :=
    mem_keys_erase hk h.nodup
  have hkept (hplace : ∀ i, k.place? = some i → t.run < i) :
      (∀ i, 1 ≤ i → i ≤ t.run → Value.index i ∈ (t.erase k).keys) ∧
        Value.index (t.run + 1) ∉ (t.erase k).keys := by
    refine ⟨fun i hpos hi => (hkeys _).2 ⟨?_, h.present i hpos hi⟩,
      fun h' => h.absent ((hkeys _).1 h').2⟩
    rintro rfl
    have := hplace i (Value.place?_index hpos (by omega))
    omega
  rw [Table.run_erase hk hmem]
  cases hplace : k.place? with
  | none => exact hkept fun i hi => by rw [hplace] at hi; cases hi
  | some i =>
    obtain ⟨rfl, hpos, hi⟩ := hk.place?_eq_some hplace
    dsimp only
    split
    · refine ⟨fun j hjpos hj => (hkeys _).2 ⟨fun heq => ?_, h.present j hjpos (by omega)⟩,
        fun h' => ?_⟩
      · have := Value.index_inj (by omega) hi heq
        omega
      · rw [Nat.sub_add_cancel hpos] at h'
        exact ((hkeys _).1 h').1 rfl
    · refine hkept fun j hj => ?_
      rw [hplace] at hj
      cases hj
      omega

theorem erase (h : t.WellFormed) (hk : k.IsKey) (hc : t.Countable) : (t.erase k).WellFormed := by
  by_cases hmem : k ∈ t.keys
  · obtain ⟨hpresent, habsent⟩ := h.run_erase hk hmem hc
    exact {
      isKey := fun k' h' => h.isKey k' ((mem_keys_erase hk h.nodup).1 h').2
      ne_nil := fun e he => h.ne_nil e (mem_of_mem_erase he)
      nodup := by
        rw [keys_erase hk]
        exact h.nodup.erase k
      present := hpresent
      absent := habsent }
  · rwa [erase_of_notMem hk hmem]

/-- **Writing keeps a table well-formed.** -/
theorem write (h : t.WellFormed) (hk : k.IsKey) (hc : t.Countable)
    (hc' : (t.write k v).Countable) : (t.write k v).WellFormed := by
  unfold Table.write at hc' ⊢
  split
  · exact h.erase hk hc
  · rename_i hv
    rw [if_neg hv] at hc'
    exact h.insert hk hv hc'

end WellFormed

end Table

/-! ## Well-formed heaps -/

/-- The table that a value is has a number of the heap. -/
def Value.InHeap (H : Heap) (v : Value) : Prop := ∀ t, v = .table t → t < H.size

namespace Value.InHeap

variable {H H' : Heap} {v : Value}

/-- A heap that has grown has the tables it had. -/
theorem mono (h : v.InHeap H) (hle : H.size ≤ H'.size) : v.InHeap H' :=
  fun t ht => Nat.lt_of_lt_of_le (h t ht) hle

/-- The key that a value stands for holds the table that the value is. -/
theorem canonical (h : v.InHeap H) : v.canonical.InHeap H := by
  rintro t ht
  refine h t ?_
  cases v <;> simp_all [Value.canonical]

end Value.InHeap

namespace Heap

/-- What holds of every heap whose tables were made by writing entries. -/
structure WellFormed (H : Heap) : Prop where
  tables : ∀ t, (H.table t).WellFormed ∧ (H.table t).Countable
  /-- Entries hold tables of the heap. -/
  closed : ∀ t, ∀ e ∈ (H.table t).entries, e.1.InHeap H ∧ e.2.InHeap H
  /-- The tables can be counted. -/
  size : H.size < 2 ^ 63

variable {H : Heap} {t : TableId}

theorem table_update (H : Heap) (t : TableId) (f : Table → Table) (i : TableId) :
    (H.update t f).table i = if i = t ∧ t < H.size then f (H.table t) else H.table i := by
  unfold update table size
  simp only [Array.getD_eq_getD_getElem?, Array.getElem?_modify]
  by_cases hi : t = i
  · subst hi
    by_cases hlt : t < H.tables.size
    · simp [hlt]
    · simp [hlt]
  · have : ¬i = t := fun h => hi h.symm
    simp [hi, this]

theorem size_add (H : Heap) (t : Table) : (H.add t).2.size = H.size + 1 := Array.size_push ..

theorem table_of_size_le (h : H.size ≤ t) : H.table t = .empty := by
  unfold size at h
  simp [table, h]

theorem table_empty (t : TableId) : empty.table t = .empty := table_of_size_le (Nat.zero_le t)

/-- A new table without entries changes no table: its number stood for such a table before. -/
theorem table_add_empty (H : Heap) (t : TableId) : (H.add .empty).2.table t = H.table t := by
  rw [table_add]
  split
  · rename_i h
    rw [h, table_of_size_le (Nat.le_refl _)]
  · rfl

/-- Whether a heap is well-formed can be computed from the tables that it has. -/
theorem wellFormed_iff : H.WellFormed ↔
    (∀ t < H.size, ((H.table t).WellFormed ∧ (H.table t).Countable) ∧
      ∀ e ∈ (H.table t).entries, (∀ u ∈ e.1.table?, u < H.size) ∧ ∀ u ∈ e.2.table?, u < H.size) ∧
      H.size < 2 ^ 63 := by
  have hin (v : Value) : (∀ u ∈ v.table?, u < H.size) ↔ v.InHeap H := by
    cases v <;> simp [Value.table?, Value.InHeap]
  simp only [hin]
  constructor
  · intro h
    exact ⟨fun t _ => ⟨h.tables t, h.closed t⟩, h.size⟩
  · rintro ⟨h, hs⟩
    have hall (t : TableId) : ((H.table t).WellFormed ∧ (H.table t).Countable) ∧
        ∀ e ∈ (H.table t).entries, e.1.InHeap H ∧ e.2.InHeap H := by
      by_cases ht : t < H.size
      · exact h t ht
      · rw [table_of_size_le (Nat.not_lt.1 ht)]
        exact ⟨⟨Table.wellFormed_empty, by decide⟩, fun e he => absurd he List.not_mem_nil⟩
    exact ⟨fun t => (hall t).1, fun t => (hall t).2, hs⟩

instance (H : Heap) : Decidable H.WellFormed := decidable_of_iff _ wellFormed_iff.symm

theorem wellFormed_empty : empty.WellFormed where
  tables t := by
    rw [table_empty]
    exact ⟨Table.wellFormed_empty, by decide⟩
  closed t e he := by
    rw [table_empty] at he
    exact absurd he List.not_mem_nil
  size := by decide

/-- What an assignment does if it succeeds: it writes under the key that the value stands for. -/
theorem set_eq_ok {k v : Value} {H' : Heap} (h : H.set t k v = .ok H') :
    k.canonical.IsKey ∧ H' = H.update t (·.write k.canonical v) := by
  unfold Heap.set at h
  cases hkey : k.toKey with
  | error f =>
    rw [hkey] at h
    cases h
  | ok k' =>
    obtain ⟨rfl, hisKey⟩ := Value.toKey_eq_ok hkey
    rw [hkey] at h
    cases h
    exact ⟨hisKey, rfl⟩

/-- **Assigning keeps a heap well-formed**, if there is still room in the table. -/
theorem WellFormed.set (h : H.WellFormed) {k v : Value} (hk : k.InHeap H) (hv : v.InHeap H)
    {H' : Heap} (hset : H.set t k v = .ok H') (hc : (H'.table t).Countable) : H'.WellFormed := by
  obtain ⟨hisKey, rfl⟩ := set_eq_ok hset
  have hin {w : Value} (hw : w.InHeap H) : w.InHeap (H.update t (·.write k.canonical v)) :=
    hw.mono (Nat.le_of_eq (size_update ..).symm)
  rw [table_update] at hc
  refine ⟨fun u => ?_, fun u e he => ?_, by rw [size_update]; exact h.size⟩
  · rw [table_update]
    split
    · rename_i hu
      rw [if_pos ⟨rfl, hu.2⟩] at hc
      exact ⟨(h.tables t).1.write hisKey (h.tables t).2 hc, hc⟩
    · exact h.tables u
  · rw [table_update] at he
    have hentry : e = (k.canonical, v) ∨ ∃ u, e ∈ (H.table u).entries := by
      split at he
      · exact (Table.mem_write he).imp_right fun he => ⟨t, he⟩
      · exact .inr ⟨u, he⟩
    rcases hentry with rfl | ⟨u, he⟩
    · exact ⟨hin hk.canonical, hin hv⟩
    · exact ⟨hin (h.closed u e he).1, hin (h.closed u e he).2⟩

end Heap

end LuaGraph
