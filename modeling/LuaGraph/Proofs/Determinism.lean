import LuaGraph.Proofs.Graph.Apart
import LuaGraph.Proofs.Ladder
import LuaGraph.Proofs.RoundTrip

/-!
# Determinism

As long as no table is a key, what is saved depends on what the bindings hold only: not on the
numbers of tables, not on the identities of handles, and not on the order in which entries came in.
Tables among the keys of a table do no harm where their signatures tell them apart, as they do with
one. Where they do not, `sort_entries` leaves level entries as they came in, and the order shows.

Headlines:
* **`save_eq_of_isomorphic`**: bindings that hold the same under scalar keys are saved as the same
  text.
* **`save_eq_of_perm`**: the order of entries does not show where all tables tell their keys apart.
* `text_depends_on_insertion`: with two keys that are not told apart it does.
-/

namespace LuaGraph

/-- No table is a key of the bindings or of a table that can be reached from them. -/
def KeysAreScalar (H : Heap) (bindings : TableId) : Prop :=
  ∀ t, t = bindings ∨ Leads H.writable bindings t → ∀ e ∈ H.writable t, e.1.isTable = false

section

variable {H H' : Heap} {φ : TableId → TableId} {bindings bindings' : TableId}
  {required required' : Option TableId} {σ : Type}

/-- Where the same is held, the same keys are scalars. -/
theorem Isomorphic.keysAreScalar (hi : Isomorphic H H' φ bindings bindings')
    (hkeys : KeysAreScalar H bindings) : KeysAreScalar H' bindings' := by
  have hsame {t t' : TableId} (hsame : SameOutlines φ (H.writable t) (H'.writable t'))
      (hkeys : ∀ e ∈ H.writable t, e.1.isTable = false) (e' : Entry) (he' : e' ∈ H'.writable t') :
      e'.1.isTable = false := by
    obtain ⟨e, he, heq⟩ := List.mem_map.1 (hsame.mem_iff.2 (List.mem_map_of_mem he'))
    have hkey := congrArg (·.1.isTable) heq
    simp only [Entry.outline, Value.isTable_outline] at hkey
    rw [← hkey]
    exact hkeys e he
  rintro t' (rfl | ht)
  · exact hsame hi.root (hkeys bindings (.inl rfl))
  · obtain ⟨t, hleads, rfl⟩ := hi.exists_of_leads ht
    exact hsame (hi.tables t hleads) (hkeys t (.inr hleads))

/-- Scalar keys are sorted without a panic. -/
theorem KeysAreScalar.sorts (h : H.WellFormed) (hkeys : KeysAreScalar H bindings)
    (hscalars : ∀ k ∈ requiredKeys H required, k.isTable = false) :
    Save.Sorts H bindings required := by
  have hnot {t : TableId} (ht : t = bindings ∨ Leads H.writable bindings t) {e : Entry}
      (he : e ∈ H.writable t) {u : TableId} (hu : e.1 = .table u) : False := by
    have htable := hkeys t ht e he
    rw [hu] at htable
    cases htable
  refine Save.Calm.sorts ⟨.inr fun e he e' _ t u ht _ _ => ?_, fun t ht =>
    .inr fun e he e' _ u w hu _ _ => ?_⟩ h
  · exact (hnot (.inl rfl) (eq_entry_of_table hscalars he ht) ht).elim
  · exact (hnot (.inr ((reach_written_iff hscalars).1 ht))
      (mem_writable (List.mem_of_mem_filter he) hu) hu).elim

/-- **Bindings that hold the same under scalar keys are saved as the same text**, or not at all for
the same reason, in every form and whatever the checker. No sort panics for that. -/
theorem save_eq_of_isomorphic (h : H.WellFormed) (h' : H'.WellFormed)
    (hi : Isomorphic H H' φ bindings bindings') (hkeys : KeysAreScalar H bindings)
    (hrequired : (requiredKeys H required).Perm (requiredKeys H' required'))
    (hscalars : ∀ k ∈ requiredKeys H required, k.isTable = false) (check : Check σ) (o : Options) :
    (∀ form, Save.attempt? check H o bindings required form =
      Save.attempt? check H' o bindings' required' form) ∧
    Save.save? check H o bindings required = Save.save? check H' o bindings' required' ∧
    ∀ s, ((Save.save? check H o bindings required).run.run s).1.isSome := by
  have hs := hkeys.sorts h hscalars
  have hs' : Save.Sorts H' bindings' required' := (hi.keysAreScalar hkeys).sorts h'
    fun k hk => hscalars k (hrequired.mem_iff.2 hk)
  have hnot {t : TableId} (ht : t = bindings ∨ Leads H.writable bindings t) {e : Entry}
      (he : e ∈ H.writable t) {u : TableId} (hu : e.1 = .table u) : False := by
    have htable := hkeys t ht e he
    rw [hu] at htable
    cases htable
  have hinterchangeable : Interchangeable H H' φ bindings bindings' required required' :=
    ⟨h, h', hi, hs, hs', fun t ht e he _ _ u _ hu _ _ => (hnot ht he hu).elim,
      fun t ht e he u hu => (hnot ht he (Value.eq_table_of_table? hu)).elim, hrequired, hscalars⟩
  have hattempt := hinterchangeable.attempt?_eq check o
  exact ⟨hattempt, Save.save?_congr h h' hs hs' hattempt, Save.isSome_save? h hs⟩

end

/-- Bindings to a table that holds itself and a table that leads to it. -/
def original : Heap where
  tables := #[
    ⟨[(.string "a", .table 1), (.string "b", .table 2), (.string "f", .function ⟨0, "f"⟩)], 0⟩,
    ⟨[(.index 1, .table 1), (.string "x", .number (.integer 7)), (.boolean true, .string "y")], 1⟩,
    ⟨[(.index 1, .table 1)], 1⟩,
    ⟨[(.string "b", .boolean true), (.string "c", .boolean true)], 0⟩]
  handles := 1

/-- The same bindings in other tables, with their entries in another order. -/
def reordered : Heap where
  tables := #[
    ⟨[(.string "c", .number (.integer 0)), (.string "b", .string "")], 0⟩,
    ⟨[(.index 1, .table 3)], 1⟩,
    ⟨[(.string "f", .function ⟨8, "f"⟩), (.string "b", .table 1), (.string "a", .table 3)], 0⟩,
    ⟨[(.boolean true, .string "y"), (.string "x", .number (.integer 7)), (.index 1, .table 3)], 1⟩]
  handles := 9

/-- Where the tables of the original are among the others. -/
def relocated (t : TableId) : TableId := if t = 1 then 3 else 1

theorem leads_original {t : TableId} (ht : Leads original.writable 0 t) : t = 1 ∨ t = 2 := by
  induction ht with
  | root hu =>
    have hall : ∀ u ∈ Listing.tablesOf (original.writable 0), u = 1 ∨ u = 2 := by decide
    exact hall _ hu
  | child _ hu ih =>
    have hall : ∀ t ∈ [1, 2], ∀ u ∈ Listing.tablesOf (original.writable t), u = 1 ∨ u = 2 := by
      decide
    exact hall _ (by simpa using ih) _ hu

theorem isomorphic_reordered : Isomorphic original reordered relocated 0 2 := by
  refine ⟨by unfold SameOutlines; decide, fun t ht => ?_, fun t u ht hu htu => ?_⟩
  · unfold SameOutlines
    obtain rfl | rfl := leads_original ht <;> decide
  · obtain rfl | rfl := leads_original ht <;> obtain rfl | rfl := leads_original hu <;>
      first | rfl | cases htu

theorem keysAreScalar_original : KeysAreScalar original 0 := by
  intro t ht
  have hall : ∀ t ∈ [0, 1, 2], ∀ e ∈ original.writable t, e.1.isTable = false := by decide
  refine hall t ?_
  rcases ht with rfl | ht
  · decide
  · obtain rfl | rfl := leads_original ht <;> decide

/-- The text of the original, and of the other. -/
def originalText : String :=
  "local ref = \x7b\x7d\nfor i = 1, 1 do ref[i] = \x7b\x7d end\n" ++
  "ref[1][1] = ref[1]\nref[1].x = 7\nref[1][true] = \"y\"\n" ++
  "a = ref[1]\nb = \x7b\n  ref[1],\n\x7d\nc = nil\nf = nil --[[function: f]]\n"

theorem save_eq_of_isomorphic_reordered :
    (original.WellFormed ∧ reordered.WellFormed ∧
      Isomorphic original reordered relocated 0 2 ∧ KeysAreScalar original 0 ∧
      (requiredKeys original (some 3)).Perm (requiredKeys reordered (some 0)) ∧
      ∀ k ∈ requiredKeys original (some 3), k.isTable = false) ∧
    ((Save.save? (Save.parsing {}) original {} 0 (some 3)).run.run ()).1 =
      some (.ok originalText) ∧
    ((Save.save? (Save.parsing {}) reordered {} 2 (some 0)).run.run ()).1 =
      some (.ok originalText) := by
  have hwf : original.WellFormed := by decide +kernel
  have hwf' : reordered.WellFormed := by decide +kernel
  have hrequired : (requiredKeys original (some 3)).Perm (requiredKeys reordered (some 0)) := by
    decide +kernel
  have hscalar : ∀ k ∈ requiredKeys original (some 3), k.isTable = false := by decide +kernel
  have htext : ((Save.save? (Save.parsing {}) original {} 0 (some 3)).run.run ()).1 =
      some (.ok originalText) := by decide +kernel
  obtain ⟨-, hsave, -⟩ := save_eq_of_isomorphic hwf hwf' isomorphic_reordered
    keysAreScalar_original hrequired hscalar (Save.parsing {}) {}
  exact ⟨⟨hwf, hwf', isomorphic_reordered, keysAreScalar_original, hrequired, hscalar⟩, htext,
    hsave ▸ htext⟩

/-! ## Tables as keys -/

section

variable {H H' : Heap} {bindings : TableId} {σ : Type}

/-- **The order of insertion does not matter** where the tables among the keys of a table are told
apart by their signatures in all contexts, as one table always is. No sort panics then. -/
theorem save_eq_of_perm (h : H.WellFormed) (h' : H'.WellFormed)
    (hperm : ∀ t, (H.table t).entries.Perm (H'.table t).entries)
    (hkeys : ∀ t, t = bindings ∨ Leads H.writable bindings t → H.SignsApart t)
    (check : Check σ) (o : Options) :
    Save.save? check H o bindings none = Save.save? check H' o bindings none ∧
    ∀ s, ((Save.save? check H o bindings none).run.run s).1.isSome := by
  have hinterchangeable := Heap.interchangeable_of_perm h h' hperm hkeys
  exact ⟨Save.save?_congr h h' hinterchangeable.sorts hinterchangeable.sorts'
    (hinterchangeable.attempt?_eq check o), Save.isSome_save? h hinterchangeable.sorts⟩

end

/-- Bindings to an empty table, and to one that has it and a table with an entry as its keys. -/
def couple : Heap where
  tables := #[⟨[(.string "a", .table 1), (.string "t", .table 3)], 0⟩, {},
    ⟨[(.string "x", .number (.integer 1))], 0⟩,
    ⟨[(.table 1, .number (.integer 1)), (.table 2, .number (.integer 1))], 0⟩]

/-- The same entries, in the other order. -/
def coupleSwapped : Heap where
  tables := #[⟨[(.string "t", .table 3), (.string "a", .table 1)], 0⟩, {},
    ⟨[(.string "x", .number (.integer 1))], 0⟩,
    ⟨[(.table 2, .number (.integer 1)), (.table 1, .number (.integer 1))], 0⟩]

/-- The text of both. -/
def coupleText : String :=
  "local ref = \x7b\x7d\nfor i = 1, 1 do ref[i] = \x7b\x7d end\na = ref[1]\n" ++
    "t = \x7b\n  [\x7b\n    x = 1,\n  \x7d] = 1,\n  [ref[1]] = 1,\n\x7d\n"

theorem eq_of_reach {H : Heap} {s t : TableId} (hs : H.below s = [])
    (ht : Census.Reach H.below [s] t) : t = s := by
  induction ht with
  | root hu => exact List.mem_singleton.1 hu
  | child _ hu ih =>
    rw [ih, hs] at hu
    cases hu

/-- The two keys are told apart while the bindings or the table of the keys are signed, and no other
tables can be. -/
theorem signsApart_couple : couple.SignsApart 3 := by
  intro S hS
  have hbelow : couple.below 1 = [] ∧ couple.below 2 = [] := by decide +kernel
  have hin (s : TableId) (hs : s ∈ S) : s = 0 ∨ s = 3 := by
    match s, hS.inHeap s hs, hS.leads s hs with
    | 0, _, _ => exact .inl rfl
    | 1, _, hleads => cases eq_of_reach hbelow.1 hleads
    | 2, _, hleads => cases eq_of_reach hbelow.2 hleads
    | 3, _, _ => exact .inr rfl
    | n + 4, hlt, _ => exact absurd hlt (Nat.not_lt_of_le (Nat.le_add_left 4 n))
  have hall : ∀ S ∈ [[], [0], [3], [0, 3], [3, 0]],
      Listing.known (couple.signatureFrom? (couple.size - S.length) S) 1 ≠
        Listing.known (couple.signatureFrom? (couple.size - S.length) S) 2 := by decide +kernel
  have hmem : S ∈ [[], [0], [3], [0, 3], [3, 0]] := by
    have hnodup := hS.nodup
    match S, hin, hnodup with
    | [], _, _ => decide
    | [a], hin, _ => rcases hin a (by simp) with rfl | rfl <;> decide
    | [a, b], hin, hnodup =>
      rcases hin a (by simp) with rfl | rfl <;> rcases hin b (by simp) with rfl | rfl <;>
        simp_all
    | a :: b :: c :: _, hin, hnodup =>
      rcases hin a (by simp) with rfl | rfl <;> rcases hin b (by simp) with rfl | rfl <;>
        rcases hin c (by simp) with rfl | rfl <;> simp_all
  have hne := hall S hmem
  have hkeys : ∀ e ∈ couple.writable 3, e.1 = .table 1 ∨ e.1 = .table 2 := by decide +kernel
  intro e he e' he' t u ht hu htu
  rcases hkeys e he with hkey | hkey <;> rcases hkeys e' he' with hkey' | hkey' <;>
    obtain rfl := Value.table.inj (ht.symm.trans hkey) <;>
    obtain rfl := Value.table.inj (hu.symm.trans hkey')
  · rfl
  · exact absurd htu hne
  · exact absurd htu.symm hne
  · rfl

theorem save_eq_of_perm_couple :
    (couple.WellFormed ∧ coupleSwapped.WellFormed ∧
      (∀ t, (couple.table t).entries.Perm (coupleSwapped.table t).entries) ∧
      ∀ t, t = 0 ∨ Leads couple.writable 0 t → couple.SignsApart t) ∧
    ((Save.save? (Save.parsing {}) couple {} 0 none).run.run ()).1 = some (.ok coupleText) ∧
    ((Save.save? (Save.parsing {}) coupleSwapped {} 0 none).run.run ()).1 =
      some (.ok coupleText) := by
  have hwf : couple.WellFormed := by decide +kernel
  have hwf' : coupleSwapped.WellFormed := by decide +kernel
  have hperm (t : TableId) : (couple.table t).entries.Perm (coupleSwapped.table t).entries :=
    match t with
    | 0 | 1 | 2 | 3 => by decide +kernel
    | _ + 4 => .nil
  have hkeys (t : TableId) (_ : t = 0 ∨ Leads couple.writable 0 t) : couple.SignsApart t :=
    match t with
    | 0 | 1 | 2 => Heap.signsApart_of_tableKeys (by decide +kernel)
    | 3 => signsApart_couple
    | _ + 4 => Heap.signsApart_of_tableKeys (Nat.zero_le 1)
  have htext : ((Save.save? (Save.parsing {}) couple {} 0 none).run.run ()).1 =
      some (.ok coupleText) := by decide +kernel
  obtain ⟨hsave, -⟩ := save_eq_of_perm hwf hwf' hperm hkeys (Save.parsing {} : Check Unit) {}
  exact ⟨⟨hwf, hwf', hperm, hkeys⟩, htext, hsave ▸ htext⟩

/-- Bindings to an empty table and to one that has it and another empty one as its keys. -/
def twins : Heap where
  tables := #[⟨[(.string "a", .table 1), (.string "t", .table 3)], 0⟩, {}, {},
    ⟨[(.table 1, .number (.integer 1)), (.table 2, .number (.integer 1))], 0⟩]

/-- The same entries, with those of the last table in the other order. -/
def twinsSwapped : Heap where
  tables := #[⟨[(.string "a", .table 1), (.string "t", .table 3)], 0⟩, {}, {},
    ⟨[(.table 2, .number (.integer 1)), (.table 1, .number (.integer 1))], 0⟩]

/-- **With tables as keys the order of insertion shows.** Both keys are empty tables, so they have
the same signature, and with equal values their entries are left in the order in which they came in;
but one of the keys is shared, and is not written like the other. -/
theorem Save.text_depends_on_insertion :
    twins.WellFormed ∧ twinsSwapped.WellFormed ∧ twins.size = twinsSwapped.size ∧
    (∀ t < twins.size, (twins.table t).entries.Perm (twinsSwapped.table t).entries) ∧
    ∃ text text',
      ((save? (parsing {}) twins {} 0 none).run.run ()).1 = some (.ok text) ∧
      ((save? (parsing {}) twinsSwapped {} 0 none).run.run ()).1 = some (.ok text') ∧
        text ≠ text' := by
  refine ⟨by decide +kernel, by decide +kernel, rfl, by decide +kernel,
    "local ref = \x7b\x7d\nfor i = 1, 1 do ref[i] = \x7b\x7d end\na = ref[1]\n" ++
      "t = \x7b\n  [ref[1]] = 1,\n  [\x7b\x7d] = 1,\n\x7d\n",
    "local ref = \x7b\x7d\nfor i = 1, 1 do ref[i] = \x7b\x7d end\na = ref[1]\n" ++
      "t = \x7b\n  [\x7b\x7d] = 1,\n  [ref[1]] = 1,\n\x7d\n",
    by decide +kernel, by decide +kernel, by decide⟩

end LuaGraph
