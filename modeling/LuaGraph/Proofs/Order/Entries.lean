import LuaGraph.Proofs.Graph.Calm
import LuaGraph.Proofs.Order.Bytes
import LuaGraph.Proofs.Order.Numbers

/-!
# Entries as they are listed

A listing (`ordered_entries`) holds every entry of its table once, unless its key is a handle: first
the run, then the others in the order of their keys. Keys that are no tables are told apart by that
order, so it is strict among them; NaN among the values of level table keys does not disturb it. But
there NaN can make the sort panic, and then nothing is listed.

The entries that are saved of some bindings (`collect_bindings`) are listed in the same order.

Results: **`Heap.arranges_pairs`**, and `Heap.listing?_panics`.
-/

namespace LuaGraph

namespace Listing

/-- The kinds of keys that are written, one after the other. -/
def keyKinds : List Kind := [.number, .string, .boolean, .table]

/-- **The order of entries that are not of the run.** -/
structure InOrder (es : List Entry) : Prop where
  kinds : ∀ e ∈ es, e.1.kind ∈ keyKinds
  ranks : es.Pairwise fun e e' => keyKinds.idxOf e.1.kind ≤ keyKinds.idxOf e'.1.kind
  numbers : es.Pairwise fun e e' => ∀ m n, e.1 = .number m → e'.1 = .number n → m.value < n.value
  strings : es.Pairwise fun e e' => ∀ s s', e.1 = .string s → e'.1 = .string s' →
    Text.bytes s < Text.bytes s'
  /-- True comes before false. -/
  booleans : es.Pairwise fun e e' => ∀ b b', e.1 = .boolean b → e'.1 = .boolean b' →
    b = true ∧ b' = false

variable {es es' : List Entry} {e e' : Entry} {signature : TableId → String}
  {sign : TableId → Option String}

theorem mem_keyKinds {k : Value} (hk : k.IsKey) (hh : k.isHandle = false) : k.kind ∈ keyKinds := by
  cases k with
  | nil => exact absurd rfl hk.ne_nil
  | function f => cases hh
  | userdata f => cases hh
  | _ => simp [Value.kind, keyKinds]

/-- Keys that are written have the ranks of their kinds. -/
theorem idxOf_kind {k : Value} (hk : k.IsKey) (hh : k.isHandle = false)
    (signature : TableId → String) :
    keyKinds.idxOf k.kind = (OrderKey.ofValue signature k).rank := by
  cases k with
  | nil => exact absurd rfl hk.ne_nil
  | function f => cases hh
  | userdata f => cases hh
  | _ => rfl

theorem rank_le (h : KeysInOrderBy signature e e') :
    (OrderKey.ofValue signature e.1).rank ≤ (OrderKey.ofValue signature e'.1).rank := by
  unfold KeysInOrderBy OrderKey.lexOrder at h
  refine Nat.le_of_not_lt fun hlt => ?_
  rw [compareLex, compareOn, Nat.compare_eq_gt.2 hlt] at h
  cases h

/-- Of two different keys that are no tables one comes before the other. -/
theorem order_eq_lt (hk : e.1.IsKey) (hk' : e'.1.IsKey) (hh : e.1.isHandle = false)
    (ht : e.1.isTable = false) (hne : e.1 ≠ e'.1) (h : KeysInOrderBy signature e e') :
    (OrderKey.ofValue signature e.1).order (OrderKey.ofValue signature e'.1) = .lt := by
  rw [OrderKey.order_eq_lexOrder (hk.isNaN_ofValue signature) (hk'.isNaN_ofValue signature)]
  unfold KeysInOrderBy at h
  cases hlex : (OrderKey.ofValue signature e.1).lexOrder (OrderKey.ofValue signature e'.1) with
  | lt => rfl
  | gt =>
    rw [hlex] at h
    cases h
  | eq =>
    rcases hk.eq_of_lexOrder hk' hh hlex with heq | ⟨htable, -⟩
    · exact absurd heq hne
    · rw [ht] at htable
      cases htable

theorem isKey_of_mem_sortEntries (h : Distinct es) (hes : sortEntries sign es = some es')
    (he : e ∈ es') : e.1.IsKey ∧ e.1.isHandle = false := by
  rw [(perm_sortEntries hes).mem_iff, List.mem_filter, Bool.not_eq_true'] at he
  exact ⟨h.isKey e he.1, he.2⟩

/-- **Sorted entries are in order.** -/
theorem inOrder_sortEntries (h : Distinct es) (hes : sortEntries sign es = some es') :
    InOrder es' := by
  have hmem {e : Entry} (he : e ∈ es') := isKey_of_mem_sortEntries h hes he
  have hdistinct : es'.Pairwise fun e e' => e.1 ≠ e'.1 := by
    refine List.pairwise_map.1 (((perm_sortEntries hes).map Prod.fst).nodup_iff.2 ?_)
    exact h.nodup.sublist (List.filter_sublist.map _)
  have hpairs := (pairwise_sortEntries h.isKey hes).and hdistinct
  have hless {e e' : Entry} (he : e ∈ es') (he' : e' ∈ es') (ht : e.1.isTable = false)
      (h : KeysInOrderBy (known sign) e e' ∧ e.1 ≠ e'.1) :=
    order_eq_lt (hmem he).1 (hmem he').1 (hmem he).2 ht h.2 h.1
  refine ⟨fun e he => mem_keyKinds (hmem he).1 (hmem he).2, ?_, ?_, ?_, ?_⟩
  · refine hpairs.imp_of_mem fun {e e'} he he' h => ?_
    have hrank {e : Entry} (he : e ∈ es') := idxOf_kind (hmem he).1 (hmem he).2 (known sign)
    rw [hrank he, hrank he']
    exact rank_le h.1
  · refine hpairs.imp_of_mem fun {e e'} he he' h m n hm hn => ?_
    have hlt := hless he he' (by rw [hm]; rfl) h
    obtain ⟨hk, -⟩ := hmem he
    obtain ⟨hk', -⟩ := hmem he'
    rw [hm] at hk hlt
    rw [hn] at hk' hlt
    have hvalues := Number.order_eq_compare_value (Value.number.inj hk.canonical)
      (Value.number.inj hk'.canonical) (hk.isNaN_ofValue (known sign))
      (hk'.isNaN_ofValue (known sign))
    exact Int.compare_eq_lt.1 (hvalues.symm.trans hlt)
  · refine hpairs.imp_of_mem fun {e e'} he he' h s s' hs hs' => ?_
    have hlt := hless he he' (by rw [hs]; rfl) h
    rw [hs, hs'] at hlt
    exact Text.bytes_lt (compareOfLessAndEq_eq_lt.1 hlt)
  · refine hpairs.imp_of_mem fun {e e'} he he' h b b' hb hb' => ?_
    have hlt := hless he he' (by rw [hb]; rfl) h
    rw [hb, hb'] at hlt
    cases b <;> cases b' <;> first | exact ⟨rfl, rfl⟩ | cases hlt

/-! ## Tables -/

/-- **What a table is listed as.** -/
structure Arranges (t : Table) (listed : List Entry) : Prop where
  mem_iff : ∀ e, e ∈ listed ↔ e ∈ t.entries ∧ e.1.isHandle = false
  /-- No key stands twice. -/
  nodup : (listed.map Prod.fst).Nodup
  /-- The places of the run come first, one after the other. -/
  run : ∃ rest, listed = ((List.range t.length).map fun i =>
      (Value.index (i + 1), t.get (.index (i + 1)))) ++ rest ∧ InOrder rest

variable {t t' : Table} {l l' : Listing}

theorem arranges_ofTable (h : t.WellFormed) (hc : t.Countable) (hl : ofTable sign t = some l) :
    Arranges t l.pairs where
  mem_iff _ := (lists_ofTable hl).mem_pairs h hc
  nodup := (lists_ofTable hl).nodup_pairs h hc
  run := ⟨_, (lists_ofTable hl).pairs_eq, inOrder_sortEntries (h.distinct.filter _)
    (ofTable_eq_some hl).2⟩

/-- **A listing is a matter of which entries there are**, without tables among the keys. -/
theorem ofTable_eq_of_scalars {sign' : TableId → Option String} (h : t.WellFormed)
    (h' : t'.WellFormed) (hscalars : ∀ e ∈ t.entries, e.1.isTable = false)
    (hperm : t.entries.Perm t'.entries) (hl : ofTable sign t = some l)
    (hl' : ofTable sign' t' = some l') : l = l' := by
  have hnot {e : Entry} (he : e ∈ t.entries) {u : TableId} (hu : e.1 = .table u) : False := by
    have hscalar := hscalars e he
    rw [hu] at hscalar
    cases hscalar
  exact ofTable_eq_of_perm h h' hperm (fun e he _ _ t _ ht _ _ => (hnot he ht).elim)
    (fun e he u hu => (hnot he (Value.eq_table_of_table? hu)).elim) hl hl'

/-! ## Bindings -/

/-- **What bindings and required keys are listed as.** -/
structure Collects (H : Heap) (bindings : TableId) (required : Option TableId)
    (listed : List Entry) : Prop where
  /-- Every binding is there, and nil for every required key that has none. -/
  mem_iff : ∀ e, e ∈ listed ↔ e.1.isHandle = false ∧
    (e ∈ (H.table bindings).entries ∨ e.2 = .nil ∧
      ∃ r ∈ required, e.1 ∈ (H.table r).keys ∧ (H.table bindings).contains e.1 = false)
  /-- No key stands twice. -/
  nodup : (listed.map Prod.fst).Nodup
  order : InOrder listed

theorem collects_entriesOf {H : Heap} (h : H.WellFormed) {bindings : TableId}
    {required : Option TableId} (hes : Save.entriesOf? H bindings required = some es) :
    Collects H bindings required es := by
  have hlisted : Save.entriesOf H bindings required = es := by
    rw [Save.entriesOf, hes, Option.getD_some]
  refine ⟨fun e => ?_, hlisted ▸ nodup_entriesOf h bindings required, ?_⟩
  · rw [← hlisted, mem_entriesOf, mem_missing, and_comm]
  · rw [Save.entriesOf?_eq] at hes
    exact inOrder_sortEntries
      ⟨fun _ he => isKey_of_mem_bound h he, nodup_keys h bindings required⟩ hes

end Listing

namespace Heap

open Listing

/-- **Listing loses and repeats nothing**: neither the entries of a table, whatever the signatures
of tables are, nor bindings and required keys. Without tables among the keys it does not depend on
the order of insertion either. All this is unless a sort panics, which none does without NaN under
several table keys. -/
theorem arranges_pairs {H : Heap} (h : H.WellFormed) (t : TableId) :
    (∀ sign l, ofTable sign (H.table t) = some l → Arranges (H.table t) l.pairs) ∧
    (∀ required es, Save.entriesOf? H t required = some es → Collects H t required es) ∧
    ((∀ e ∈ (H.table t).entries, e.1.isTable = false) →
      ∀ t' : Table, t'.WellFormed → (H.table t).entries.Perm t'.entries → ∀ sign sign' l l',
        ofTable sign (H.table t) = some l → ofTable sign' t' = some l' → l.pairs = l'.pairs) ∧
    ((∀ u, Census.Reach H.below [t] u → H.Calm u) → (H.listing? t).isSome) ∧
    ∀ required, Save.Calm H t required → (Save.entriesOf? H t required).isSome :=
  ⟨fun _ _ => arranges_ofTable (h.tables t).1 (h.tables t).2, fun _ _ => collects_entriesOf h,
    fun hscalars _ h' hperm _ _ _ _ hl hl' =>
      congrArg Listing.pairs (ofTable_eq_of_scalars (h.tables t).1 h' hscalars hperm hl hl'),
    fun hcalm => listed_of_calm h hcalm .self, fun _ hcalm => (hcalm.sorts h).entries⟩

/-- A table with keys of all kinds, among them the greatest integer and the float that it is rounded
to, a handle, and a hole in the places; and one of which two keys are required. -/
def mixed : Heap where
  tables := #[
    ⟨[(.boolean false, .string "f"), (.string "é", .string "2"), (.index 3, .string "c"),
      (.number (.float (Float.ofBits 0x43e0000000000000)), .string "2^63"),
      (.function ⟨0, "h"⟩, .string "h"), (.table 1, .table 0), (.string "z", .string "1"),
      (.number (.integer 9223372036854775807), .string "max"), (.index 1, .string "a"),
      (.boolean true, .string "t"), (.number (.float (Float.ofBits 0x3fe0000000000000)), .index 7),
      (.number (.integer 0), .string "0")], 1⟩,
    ⟨[(.string "z", .boolean true), (.string "y", .boolean true)], 0⟩]
  handles := 1

/-- The same entries, in the order in which they are listed. -/
def mixedInOrder : Table := ⟨[(.index 1, .string "a"), (.number (.integer 0), .string "0"),
  (.number (.float (Float.ofBits 0x3fe0000000000000)), .index 7), (.index 3, .string "c"),
  (.number (.integer 9223372036854775807), .string "max"),
  (.number (.float (Float.ofBits 0x43e0000000000000)), .string "2^63"),
  (.string "z", .string "1"), (.string "é", .string "2"), (.boolean true, .string "t"),
  (.boolean false, .string "f"), (.table 1, .table 0), (.function ⟨0, "h"⟩, .string "h")], 1⟩

/-- The required keys in the other order. -/
def requiredInOrder : Table := ⟨[(.string "y", .boolean true), (.string "z", .boolean true)], 0⟩

theorem arranges_pairs_mixed :
    mixed.WellFormed ∧
    (∃ l, mixed.listing? 0 = some l ∧ l.pairs = mixedInOrder.entries.take 11 ∧
      Arranges (mixed.table 0) l.pairs) ∧
    (∃ l l', mixed.listing? 1 = some l ∧ ofTable mixed.signature? requiredInOrder = some l' ∧
      l.pairs = l'.pairs) ∧
    ∃ es, Save.entriesOf? mixed 0 (some 1) = some es ∧ Collects mixed 0 (some 1) es ∧
      es.drop 6 = [(.string "y", .nil), (.string "z", .string "1"), (.string "é", .string "2"),
        (.boolean true, .string "t"), (.boolean false, .string "f"), (.table 1, .table 0)] := by
  have hrun : mixed.WellFormed ∧
      (mixed.listing? 0).map Listing.pairs = some (mixedInOrder.entries.take 11) ∧
      (mixed.listing? 1).isSome ∧ (ofTable mixed.signature? requiredInOrder).isSome ∧
      (Save.entriesOf? mixed 0 (some 1)).map (·.drop 6) =
        some [(.string "y", .nil), (.string "z", .string "1"), (.string "é", .string "2"),
          (.boolean true, .string "t"), (.boolean false, .string "f"), (.table 1, .table 0)] := by
    decide +kernel
  obtain ⟨h, hpairs, hsome, hsome', hentries⟩ := hrun
  obtain ⟨l, hl, hpairs⟩ := Option.map_eq_some_iff.1 hpairs
  obtain ⟨es, hes, hentries⟩ := Option.map_eq_some_iff.1 hentries
  obtain ⟨l₁, hl₁⟩ := Option.isSome_iff_exists.1 hsome
  obtain ⟨l₂, hl₂⟩ := Option.isSome_iff_exists.1 hsome'
  obtain ⟨harranges, hcollects, -⟩ := arranges_pairs h 0
  obtain ⟨-, -, hperms, -⟩ := arranges_pairs h 1
  have hsame := hperms (by decide) requiredInOrder (by decide +kernel) (by decide) _ _ _ _ hl₁ hl₂
  exact ⟨h, ⟨l, hl, hpairs, harranges mixed.signature? l hl⟩, ⟨l₁, l₂, hl₁, hl₂, hsame⟩, es, hes,
    hcollects (some 1) es hes, hentries⟩

/-- **A table need not have a listing**, and bindings need not be collected: where NaN is under
several table keys, the sort can panic. -/
theorem listing?_panics :
    unsettled.WellFormed ∧ (unsettled.listing? 1).isNone ∧
      (Save.entriesOf? unsettled 1 none).isNone := by
  refine ⟨wellFormed_unsettled, ?_, by decide +kernel⟩
  exact Option.not_isSome_iff_eq_none.1 not_listed_unsettled ▸ rfl

end Heap

end LuaGraph
