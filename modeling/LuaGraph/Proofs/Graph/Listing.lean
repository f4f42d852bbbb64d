import LuaGraph.Proofs.Graph.WellFormed
import LuaGraph.Proofs.Settled
import LuaGraph.Proofs.Correspondence

/-!
# What a listing holds

A listing holds every entry of its table whose key is no handle, once: the entries of the run with
the places for their keys, and the others in some order. So nothing that is said about the pairs of
a listing as a set depends on how entries are sorted.

Result: `perm_pairs`.
-/

namespace LuaGraph

/-! ## Entries -/

namespace Listing

/-- Sorting keeps the entries whose key is no handle. -/
theorem perm_sortEntries {sign : TableId → Option String} {es es' : List Entry}
    (h : sortEntries sign es = some es') : es'.Perm (es.filter fun e => !e.1.isHandle) := by
  let text (t : TableId) : String := (sign t).getD ""
  have htext (t : TableId) (s : String) (hs : s ∈ sign t) : s = text t := by
    simp only [text, Option.mem_def.1 hs, Option.getD_some]
  obtain ⟨-, hsorted⟩ := Correspondence.partially.rel_sortEntries text
    (R := .any (· ∈ keyed text es))
    (fun _ _ _ t _ => Correspondence.partially_refl (htext t)) (fun _ => Iff.rfl)
    (fun x y _ _ => by cases beforeBy text x y <;> trivial) (.inr Correspondence.partially_throw)
  obtain ⟨xs, hxs, rfl⟩ := hsorted es' h
  refine (hxs.perm.map Prod.snd).trans ?_
  rw [keyed, List.map_map]
  exact .of_eq (List.map_id'' (fun _ => rfl) _)

/-- What a listing of a table holds: the run, and the other entries in some order. -/
structure Lists (t : Table) (l : Listing) : Prop where
  items : l.items = (List.range t.run).map fun i => t.get (.index (i + 1))
  fields : l.fields.Perm ((t.entries.filter fun e => !inRun t e.1).filter fun e => !e.1.isHandle)

theorem ofTable_eq_some {sign : TableId → Option String} {t : Table} {l : Listing}
    (h : ofTable sign t = some l) :
    l.items = ((List.range t.run).map fun i => t.get (.index (i + 1))) ∧
      sortEntries sign (t.entries.filter fun e => !inRun t e.1) = some l.fields := by
  obtain ⟨fields, hfields, hl⟩ := Option.bind_eq_some_iff.1 h
  obtain rfl := Option.some.inj hl
  exact ⟨rfl, hfields⟩

theorem lists_ofTable {sign : TableId → Option String} {t : Table} {l : Listing}
    (h : ofTable sign t = some l) : Lists t l :=
  have h := ofTable_eq_some h
  ⟨h.1, perm_sortEntries h.2⟩

theorem lists_unsorted (t : Table) : Lists t (unsorted t) := ⟨rfl, .refl _⟩

theorem lists_listing (H : Heap) (t : TableId) : Lists (H.table t) (H.listing t) := by
  unfold Heap.listing
  cases h : H.listing? t with
  | none => exact lists_unsorted _
  | some l => exact lists_ofTable h

/-- The pairs of the run. -/
def runPairs (t : Table) : List Entry :=
  (List.range t.run).map fun i => (.index (i + 1), t.get (.index (i + 1)))

theorem Lists.pairs_eq {t : Table} {l : Listing} (h : Lists t l) :
    l.pairs = runPairs t ++ l.fields := by
  unfold pairs runPairs
  rw [h.items]
  congr 1
  refine List.ext_getElem (by simp) fun i h₁ h₂ => ?_
  simp [Nat.add_comm]

variable {t : Table} {e : Entry}

theorem inRun_iff (hk : e.1.IsKey) (hle : t.run < 2 ^ 63) :
    inRun t e.1 = true ↔ ∃ i < t.run, e.1 = .index (i + 1) := by
  unfold inRun
  constructor
  · intro h
    cases hplace : e.1.place? with
    | none => simp [hplace] at h
    | some i =>
      obtain ⟨heq, hpos, -⟩ := hk.place?_eq_some hplace
      have hi : i ≤ t.run := by simpa [hplace] using h
      exact ⟨i - 1, by omega, by rw [Nat.sub_add_cancel hpos, heq]⟩
  · rintro ⟨i, hi, heq⟩
    rw [heq, Value.place?_index (by omega) (by omega)]
    simpa using Nat.succ_le_of_lt hi

/-- The entries of the run are the pairs of the run. -/
theorem perm_runPairs (h : t.WellFormed) (hc : t.Countable) :
    (runPairs t).Perm (t.entries.filter fun e => inRun t e.1) := by
  have hle := h.run_le hc
  unfold Table.Countable at hc
  have hnodup : t.entries.Nodup := .of_map _ h.nodup
  refine (List.perm_ext_iff_of_nodup ?_ (hnodup.filter _)).2 fun e => ?_
  · refine List.Nodup.map_on ?_ List.nodup_range
    intro i hi j hj hij
    rw [List.mem_range] at hi hj
    have := Value.index_inj (by omega) (by omega) (congrArg Prod.fst hij)
    omega
  · unfold runPairs
    rw [List.mem_map, List.mem_filter]
    constructor
    · rintro ⟨i, hi, rfl⟩
      rw [List.mem_range] at hi
      obtain ⟨e, he, hkey⟩ := List.mem_map.1 (h.present (i + 1) (by omega) hi)
      have hget := h.get_of_mem he
      rw [← hkey, hget]
      exact ⟨he, (inRun_iff (h.isKey_of_mem he) (by omega)).2 ⟨i, hi, hkey⟩⟩
    · rintro ⟨he, hrun⟩
      obtain ⟨i, hi, hkey⟩ := (inRun_iff (h.isKey_of_mem he) (by omega)).1 hrun
      exact ⟨i, List.mem_range.2 hi, by rw [← hkey, h.get_of_mem he]⟩

variable {l : Listing}

/-- **A listing holds the entries of its table**, except those whose key is a handle. -/
theorem Lists.perm_pairs (hl : Lists t l) (h : t.WellFormed) (hc : t.Countable) :
    l.pairs.Perm (t.entries.filter fun e => !e.1.isHandle) := by
  have hle := h.run_le hc
  unfold Table.Countable at hc
  rw [hl.pairs_eq]
  refine ((perm_runPairs h hc).append hl.fields).trans ?_
  have hrun : t.entries.filter (fun e => inRun t e.1) =
      (t.entries.filter fun e => !e.1.isHandle).filter fun e => inRun t e.1 := by
    rw [List.filter_filter]
    refine List.filter_congr fun e he => ?_
    cases hin : inRun t e.1 with
    | false => rfl
    | true =>
      obtain ⟨i, -, hkey⟩ := (inRun_iff (h.isKey_of_mem he) (by omega)).1 hin
      rw [hkey]
      rfl
  rw [hrun, List.filter_filter, List.filter_filter]
  simp only [Bool.and_comm]
  rw [← List.filter_filter, ← List.filter_filter]
  exact List.filter_append_perm _ _

theorem Lists.mem_pairs (hl : Lists t l) (h : t.WellFormed) (hc : t.Countable) :
    e ∈ l.pairs ↔ e ∈ t.entries ∧ e.1.isHandle = false := by
  rw [(hl.perm_pairs h hc).mem_iff, List.mem_filter, Bool.not_eq_true']

/-- No key stands twice in a listing. -/
theorem Lists.nodup_pairs (hl : Lists t l) (h : t.WellFormed) (hc : t.Countable) :
    (l.pairs.map Prod.fst).Nodup := by
  rw [((hl.perm_pairs h hc).map Prod.fst).nodup_iff]
  exact h.nodup.sublist (List.filter_sublist.map _)

/-- The tables among the keys and values of entries, in order. -/
def tablesOf (es : List Entry) : List TableId :=
  es.flatMap fun e => [e.1, e.2].filterMap Value.table?

theorem mem_tablesOf {es : List Entry} {u : TableId} :
    u ∈ tablesOf es ↔ ∃ e ∈ es, e.1 = .table u ∨ e.2 = .table u := by
  have htable (v : Value) : v.table? = some u ↔ v = .table u := by cases v <;> simp [Value.table?]
  simp only [tablesOf, List.mem_flatMap, List.mem_filterMap, List.mem_cons, List.not_mem_nil,
    or_false, htable]
  constructor
  · rintro ⟨e, he, v, rfl | rfl, hv⟩
    · exact ⟨e, he, .inl hv⟩
    · exact ⟨e, he, .inr hv⟩
  · rintro ⟨e, he, hv | hv⟩
    · exact ⟨e, he, _, .inl rfl, hv⟩
    · exact ⟨e, he, _, .inr rfl, hv⟩

/-- The children in a listing are the tables in its pairs. -/
theorem children_eq (l : Listing) : Census.children l = tablesOf l.pairs := by
  unfold Census.children tablesOf pairs
  rw [List.flatMap_append, List.flatMap_map]
  congr 1
  generalize 1 = n
  induction l.items generalizing n with
  | nil => rfl
  | cons v vs ih =>
    rw [List.zipIdx_cons, List.flatMap_cons, ← ih, List.filterMap_cons]
    have : (Value.index n).table? = none := rfl
    cases hv : v.table? <;> simp [this, hv]

end Listing

/-! ## Pairs of a heap -/

namespace Heap

variable {H : Heap} {t : TableId} {e : Entry}

/-- The entries of a table as they are written. -/
def pairs (H : Heap) (t : TableId) : List Entry := (H.listing t).pairs

/-- The entries of a table whose key is no handle. -/
def writable (H : Heap) (t : TableId) : List Entry :=
  (H.table t).entries.filter fun e => !e.1.isHandle

/-- The tables among the keys and values of these entries. -/
def below (H : Heap) (t : TableId) : List TableId := Listing.tablesOf (H.writable t)

theorem perm_pairs (h : H.WellFormed) (t : TableId) :
    (H.pairs t).Perm ((H.table t).entries.filter fun e => !e.1.isHandle) :=
  (Listing.lists_listing H t).perm_pairs (h.tables t).1 (h.tables t).2

theorem mem_pairs (h : H.WellFormed) :
    e ∈ H.pairs t ↔ e ∈ (H.table t).entries ∧ e.1.isHandle = false :=
  (Listing.lists_listing H t).mem_pairs (h.tables t).1 (h.tables t).2

theorem nodup_pairs (h : H.WellFormed) (t : TableId) : ((H.pairs t).map Prod.fst).Nodup :=
  (Listing.lists_listing H t).nodup_pairs (h.tables t).1 (h.tables t).2

end Heap

end LuaGraph
