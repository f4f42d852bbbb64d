import LuaGraph.Proofs.Panics

/-!
# Round trip

What is saved (`Persister::attempt`) can be loaded (`Loader::load`), and what is loaded has the same
shape: the tables that can be reached from the environment are those that could be reached from the
bindings under new numbers, and they hold the same entries. Only handles are lost, and with them the
entries that they stood in.

Headlines:
* `run_program`: running the program of a faithful document makes a copy.
* **`load_attempt`**: an accepted text loads, and gives the bindings back up to renumbering.
-/

namespace LuaGraph

open Chunk

/-! ## Renumbering -/

namespace Value

/-- The value where tables have other numbers. -/
def renumbered (φ : TableId → TableId) : Value → Value
  | table t => table (φ t)
  | v => v

theorem copied_eq_renumbered {φ : TableId → TableId} {v : Value} (h : v.isHandle = false) :
    v.copied φ = v.renumbered φ := by
  cases v with
  | function a => cases h
  | userdata a => cases h
  | _ => rfl

theorem renumbered_eq_table {φ : TableId → TableId} {v : Value} {u : TableId} :
    v.renumbered φ = .table u ↔ ∃ t, v = .table t ∧ φ t = u := by
  cases v <;> simp [renumbered]

end Value

namespace Heap

/-- The entries of a table that hold no handle. -/
def kept (H : Heap) (t : TableId) : List Entry :=
  (H.table t).entries.filter fun e => !e.1.isHandle && !e.2.isHandle

end Heap

/-- Entries where tables have other numbers. -/
def renumberedEntries (φ : TableId → TableId) (es : List Entry) : List Entry :=
  es.map fun e => (e.1.renumbered φ, e.2.renumbered φ)

/-- **The entries of one table are those of another up to renumbering**: the tables that can be
reached from either correspond one to one, and hold the same entries in some order. -/
structure Renumbers (entries entries' : TableId → List Entry) (φ : TableId → TableId)
    (t t' : TableId) : Prop where
  root : (entries' t').Perm (renumberedEntries φ (entries t))
  tables : ∀ u, Leads entries t u → (entries' (φ u)).Perm (renumberedEntries φ (entries u))
  injective : ∀ u w, Leads entries t u → Leads entries t w → φ u = φ w → u = w
  leads_iff : ∀ u', Leads entries' t' u' ↔ ∃ u, Leads entries t u ∧ φ u = u'

section

variable {entries entries' : TableId → List Entry} {φ : TableId → TableId} {t t' u' : TableId}

theorem mem_tablesOf_renumbered {es : List Entry} :
    u' ∈ Listing.tablesOf (renumberedEntries φ es) ↔ ∃ u ∈ Listing.tablesOf es, φ u = u' := by
  have hmem : u' ∈ Listing.tablesOf (renumberedEntries φ es) ↔
      ∃ e ∈ es, e.1.renumbered φ = .table u' ∨ e.2.renumbered φ = .table u' := by
    rw [Listing.mem_tablesOf]
    constructor
    · rintro ⟨_, he', h⟩
      obtain ⟨e, he, rfl⟩ := List.mem_map.1 he'
      exact ⟨e, he, h⟩
    · rintro ⟨e, he, h⟩
      exact ⟨_, List.mem_map_of_mem he, h⟩
  rw [hmem]
  constructor
  · rintro ⟨e, he, h | h⟩
    · obtain ⟨u, hu, rfl⟩ := Value.renumbered_eq_table.1 h
      exact ⟨u, Listing.mem_tablesOf.2 ⟨e, he, .inl hu⟩, rfl⟩
    · obtain ⟨u, hu, rfl⟩ := Value.renumbered_eq_table.1 h
      exact ⟨u, Listing.mem_tablesOf.2 ⟨e, he, .inr hu⟩, rfl⟩
  · rintro ⟨u, hu, rfl⟩
    obtain ⟨e, he, h⟩ := Listing.mem_tablesOf.1 hu
    exact ⟨e, he, h.imp (fun h => by rw [h]; rfl) fun h => by rw [h]; rfl⟩

theorem mem_tablesOf_of_perm {es es' : List Entry} (h : es'.Perm (renumberedEntries φ es)) :
    u' ∈ Listing.tablesOf es' ↔ ∃ u ∈ Listing.tablesOf es, φ u = u' := by
  rw [← mem_tablesOf_renumbered]
  exact (h.flatMap_right _).mem_iff

/-- Where the entries agree, so do the tables that can be reached. -/
theorem leads_iff (hroot : (entries' t').Perm (renumberedEntries φ (entries t)))
    (htables : ∀ u, Leads entries t u → (entries' (φ u)).Perm (renumberedEntries φ (entries u))) :
    Leads entries' t' u' ↔ ∃ u, Leads entries t u ∧ φ u = u' := by
  constructor
  · intro h
    induction h with
    | root h =>
      obtain ⟨u, hu, rfl⟩ := (mem_tablesOf_of_perm hroot).1 h
      exact ⟨u, .root hu, rfl⟩
    | child _ h ih =>
      obtain ⟨w, hw, rfl⟩ := ih
      obtain ⟨u, hu, rfl⟩ := (mem_tablesOf_of_perm (htables w hw)).1 h
      exact ⟨u, .child hw hu, rfl⟩
  · rintro ⟨u, h, rfl⟩
    induction h with
    | root h => exact .root ((mem_tablesOf_of_perm hroot).2 ⟨_, h, rfl⟩)
    | child hw h ih => exact .child ih ((mem_tablesOf_of_perm (htables _ hw)).2 ⟨_, h, rfl⟩)

end

/-! ## What a copy holds -/

section

variable {H : Heap} {φ : TableId → TableId} {bindings t : TableId} {required : Option TableId}

/-- What a copy of some entries holds: those without a handle, renumbered. -/
theorem perm_copyOf {es es' : List Entry} (hn : ∀ e ∈ es', e.2.isNil = false)
    (h : es.Perm (es'.filter fun e => !e.1.isHandle)) :
    (copyOf φ es).Perm
      (renumberedEntries φ (es'.filter fun e => !e.1.isHandle && !e.2.isHandle)) := by
  have hfilter : (es'.filter fun e => !e.1.isHandle).filter (fun e => e.2.isKept) =
      es'.filter fun e => !e.1.isHandle && !e.2.isHandle := by
    rw [List.filter_filter]
    refine List.filter_congr fun e he => ?_
    rw [Value.isKept, hn e he, Bool.not_false, Bool.and_true, Bool.and_comm]
  have hmap : ((es'.filter fun e => !e.1.isHandle && !e.2.isHandle).map
      fun e => (e.1.copied φ, e.2.copied φ)) =
        renumberedEntries φ (es'.filter fun e => !e.1.isHandle && !e.2.isHandle) := by
    refine List.map_congr_left fun e he => ?_
    have hh := (List.mem_filter.1 he).2
    simp only [Bool.and_eq_true, Bool.not_eq_true'] at hh
    rw [Value.copied_eq_renumbered hh.1, Value.copied_eq_renumbered hh.2]
  rw [← hmap, ← hfilter]
  exact (h.filter _).map _

theorem isNil_of_mem (h : H.WellFormed) {e : Entry} (he : e ∈ (H.table t).entries) :
    e.2.isNil = false := by
  cases hv : e.2 with
  | nil => exact absurd hv ((h.tables t).1.ne_nil e he)
  | _ => rfl

/-- A copy of a table holds what is kept of it. -/
theorem perm_copyOf_pairs (h : H.WellFormed) (t : TableId) :
    (copyOf φ (H.pairs t)).Perm (renumberedEntries φ (H.kept t)) :=
  perm_copyOf (fun _ he => isNil_of_mem h he) (Heap.perm_pairs h t)

/-- **Required keys without a binding leave nothing**: a copy of the entries to be written holds
what is kept of the bindings. -/
theorem perm_copyOf_entriesOf (h : H.WellFormed) (bindings : TableId) (required : Option TableId) :
    (copyOf φ (Save.entriesOf H bindings required)).Perm
      (renumberedEntries φ (H.kept bindings)) := by
  have hmissing : copyOf φ ((Save.missing H bindings required).filter fun e => !e.1.isHandle) =
      [] := by
    refine List.map_eq_nil_iff.2 (List.filter_eq_nil_iff.2 fun e he => ?_)
    rw [(mem_missing.1 (List.mem_filter.1 he).1).1]
    decide
  have hcopy : (copyOf φ (Save.entriesOf H bindings required)).Perm
      (copyOf φ (((H.table bindings).entries ++ Save.missing H bindings required).filter
        fun e => !e.1.isHandle)) :=
    ((perm_entriesOf H bindings required).filter _).map _
  rw [List.filter_append, copyOf_append, hmissing, List.append_nil] at hcopy
  exact hcopy.trans (perm_copyOf (fun _ he => isNil_of_mem h he) (.refl _))

theorem mem_entriesOf_of_mem_kept {e : Entry} (required : Option TableId)
    (he : e ∈ H.kept bindings) : e ∈ Save.entriesOf H bindings required := by
  obtain ⟨hmem, hh⟩ := List.mem_filter.1 he
  rw [Bool.and_eq_true, Bool.not_eq_true'] at hh
  exact mem_entriesOf.2 ⟨.inl hmem, hh.1⟩

/-- What can be reached through what is kept has a slot or is made. -/
theorem Faithful.isMet_of_leads {slots : List TableId} {depth : Nat} {es : List Entry}
    (hf : Faithful H slots depth es) (h : H.WellFormed) (hkept : ∀ e ∈ H.kept bindings, e ∈ es)
    (ht : Leads H.kept bindings t) : IsMet H slots depth es t := by
  induction ht with
  | root ht =>
    obtain ⟨e, he, hv⟩ := Listing.mem_tablesOf.1 ht
    exact hf.roots _ (Listing.mem_tablesOf.2 ⟨e, hkept e he, hv⟩)
  | child _ ht ih =>
    obtain ⟨e, he, hv⟩ := Listing.mem_tablesOf.1 ht
    obtain ⟨hmem, hh⟩ := List.mem_filter.1 he
    rw [Bool.and_eq_true, Bool.not_eq_true'] at hh
    exact hf.closed _ ih _ (Heap.mem_children.2 ⟨e, (Heap.mem_pairs h).2 ⟨hmem, hh.1⟩, hv⟩)

end

/-! ## Running the program of a document -/

section

variable {H : Heap} {o : Options} {form : Form} {es : List Entry}

/-- The tables of a heap are left as they were, and the environment and the copies of the tables
that are met are there besides. -/
structure Beside (φ : TableId → TableId) (met : TableId → Prop) (H₀ : Heap) (m : Machine) :
    Prop where
  entries : ∀ i < H₀.size, (m.heap.table i).entries = (H₀.table i).entries
  size_lt : H₀.size < m.heap.size
  environment : m.environment = H₀.size
  lt : ∀ t, met t → φ t < m.heap.size

/-- A machine starts from a heap with a new table for its environment. -/
theorem Spares.beside {φ : TableId → TableId} {met : TableId → Prop} {H₀ : Heap} {m : Machine}
    (h : Spares φ met ⟨(H₀.add .empty).2, H₀.size, [[]]⟩ m) (henv : m.environment = H₀.size) :
    Beside φ met H₀ m where
  entries i hi := by
    have hlt : i < (H₀.add .empty).2.size := by
      rw [Heap.size_add]
      exact Nat.lt_succ_of_lt hi
    rw [h.entries i hlt (Nat.ne_of_lt hi), Heap.table_add_empty]
  size_lt := by
    have hle : (H₀.add .empty).2.size ≤ m.heap.size := h.size_le
    rw [Heap.size_add] at hle
    exact hle
  environment := henv
  lt := h.lt

/-- Running the program of a faithful document makes a copy, and leaves the heap that it starts from
as it was. -/
theorem run_program_beside (h : H.WellFormed) {c : Census} (hn : c.all.Nodup)
    (hf : Faithful H (Document.slotted form c) o.limits.maxDepth es) (H₀ : Heap) :
    ∃ φ m, run (Document.ofBindings H o form c es).program H₀ = .ok (m.environment, m.heap) ∧
      Copies H φ (IsMet H (Document.slotted form c) o.limits.maxDepth es) es m ∧
      Beside φ (IsMet H (Document.slotted form c) o.limits.maxDepth es) H₀ m := by
  obtain ⟨xss, hflat, hblocks⟩ := blocks_ofBindings H o form es hn
  generalize hm₀ : (⟨(H₀.add .empty).2, H₀.size, [[]]⟩ : Machine) = m₀
  have henv : m₀.environment < m₀.heap.size := by
    rw [← hm₀, Heap.size_add]
    exact Nat.lt_succ_self _
  have hempty : (m₀.heap.table m₀.environment).entries = [] := by
    rw [← hm₀, Heap.table_add_empty, Heap.table_of_size_le (Nat.le_refl _)]
    rfl
  obtain ⟨m₁, hexec₁, hp⟩ := exists_prepared (m := m₀) hf.few (by rw [← hm₀])
  obtain ⟨φ, m, hexec, hm, hcopies, hspares⟩ :=
    exec_statements h hf (form == .split) hflat hp henv hempty
  rw [← hm₀] at hm
  have hbeside : Beside φ (IsMet H (Document.slotted form c) o.limits.maxDepth es) H₀ m := by
    rw [← hm₀] at hspares
    exact hspares.beside hm
  refine ⟨φ, m, ?_, hcopies, hbeside⟩
  have hprogram : (Document.ofBindings H o form c es).program =
      (if (Document.slotted form c).length = 0 then []
        else Document.preambleStats (Document.slotted form c).length) ++
      ((xss.flatMap fun xs => Document.blockStats (form == .split)
          (xs.map (fillFor H (slotOf form c) o.limits.maxDepth))) ++
        es.map fun e => (bindingOf H (slotOf form c) o.limits.maxDepth e).stat
          (Document.slotted form c).length) := by
    unfold Document.program
    rw [hblocks, List.flatMap_map, List.append_assoc]
    unfold Document.ofBindings
    dsimp only
    rw [List.map_map]
    rfl
  have hrun : execAll (Document.ofBindings H o form c es).program m₀ = .ok () m := by
    rw [hprogram, execAll_append hexec₁]
    exact hexec
  unfold run
  rw [← hm₀] at hrun
  have hadd : H₀.add .empty = (H₀.size, (H₀.add .empty).2) := rfl
  rw [hadd]
  dsimp only
  rw [hrun, hm]

/-- **Running the program of a faithful document makes a copy**, in a new environment. -/
theorem run_program (h : H.WellFormed) {c : Census} (hn : c.all.Nodup)
    (hf : Faithful H (Document.slotted form c) o.limits.maxDepth es) (H₀ : Heap) :
    ∃ φ m, run (Document.ofBindings H o form c es).program H₀ = .ok (m.environment, m.heap) ∧
      Copies H φ (IsMet H (Document.slotted form c) o.limits.maxDepth es) es m := by
  obtain ⟨φ, m, hrun, hcopies, -⟩ := run_program_beside h hn hf H₀
  exact ⟨φ, m, hrun, hcopies⟩

end

/-! ## Loading what was saved -/

section

variable {σ : Type} {H : Heap} {o : Options} {form : Form} {text : String}

/-- A check that does not depend on anything but the text: it can be parsed within the limits. -/
def Save.parsing (limits : Limits) : Check σ := fun text => return check limits text

/-- An accepted form is shallow, and its text was parsed. -/
theorem Save.tryForm_eq_ok {c : Census} {es : List Entry} {s : σ}
    (h : ((Save.tryForm (Save.parsing o.limits) H o c es form).run s).1.outcome = .ok text) :
    (Document.ofBindings H o form c es).isTooDeep = false ∧
      (Document.ofBindings H o form c es).text (Save.layoutOf o) = text ∧
        ∃ body, parse o.limits text = .ok body := by
  unfold Save.tryForm Save.render at h
  dsimp only at h
  cases hd : (Document.ofBindings H o form c es).isTooDeep with
  | true =>
    rw [hd] at h
    cases h
  | false =>
    rw [hd, if_neg Bool.false_ne_true] at h
    cases hp : parse o.limits ((Document.ofBindings H o form c es).text (Save.layoutOf o)) with
    | ok body =>
      simp only [Save.parsing, check, hp] at h
      cases h
      exact ⟨rfl, rfl, body, hp⟩
    | error e =>
      simp only [Save.parsing, check, hp] at h
      cases h

/-- **What is saved in any form can be loaded**, and gives the bindings back up to renumbering. -/
theorem load_attempt (h : H.WellFormed) (bindings : TableId) (required : Option TableId) {s s' : σ}
    {a : Attempt}
    (ha : (Save.attempt? (Save.parsing o.limits) H o bindings required form).run.run s =
      (some a, s')) (hok : a.outcome = .ok text) (H₀ : Heap) :
    ∃ env H' φ, load o.limits text H₀ = .ok (env, H') ∧
      Renumbers H.kept H'.entries φ bindings env := by
  obtain ⟨-, ha⟩ := (Save.run_attempt?_eq_some_iff h s).1 ha
  have hok : ((Save.attempt (Save.parsing o.limits) H o bindings required form).run s).1.outcome =
      .ok text := by
    rw [ha]
    exact hok
  have hin (e : Entry) (he : e ∈ Save.entriesOf H bindings required) := inHeap_of_mem_entriesOf h he
  have hkeys := nodup_entriesOf h bindings required
  have hkey (e : Entry) (he : e ∈ Save.entriesOf H bindings required) := isKey_of_mem_entriesOf h he
  unfold Save.attempt at hok
  dsimp only at hok
  have hbindings (φ : TableId → TableId) := perm_copyOf_entriesOf (φ := φ) h bindings required
  have hkept (e : Entry) (he : e ∈ H.kept bindings) := mem_entriesOf_of_mem_kept required he
  generalize Save.entriesOf H bindings required = es at *
  generalize Save.effective o (Save.censusOf H es) form = form at *
  obtain ⟨hdeep, rfl, body, hbody⟩ := Save.tryForm_eq_ok hok
  have hsound := sound_censusOf h hin
  have hshallow := (shallow_iff hsound.nodup).1 hdeep
  have hf := faithful h (hin) hkeys hkey hshallow
  have hwritable := writable_ofBindings hsound.nodup hf.few hshallow
  obtain ⟨φ, m, hrun, hcopies⟩ := run_program h hsound.nodup hf H₀
  refine ⟨m.environment, m.heap, φ, ?_, ?_⟩
  · unfold load
    rw [hbody, eq_program_of_parse _ hwritable hbody]
    exact hrun
  · have hmet (u : TableId) (hu : Leads H.kept bindings u) := hf.isMet_of_leads h hkept hu
    have htables (u : TableId) (hu : Leads H.kept bindings u) :
        (m.heap.entries (φ u)).Perm (renumberedEntries φ (H.kept u)) := by
      rw [Heap.entries, hcopies.tables u (hmet u hu)]
      exact perm_copyOf_pairs h u
    have hroot : (m.heap.entries m.environment).Perm (renumberedEntries φ (H.kept bindings)) := by
      rw [Heap.entries, hcopies.environment]
      exact hbindings φ
    exact ⟨hroot, htables, fun u w hu hw => hcopies.injective u w (hmet u hu) (hmet w hw),
      fun _ => leads_iff hroot htables⟩

end

/-- Bindings with a table that holds itself, twice over, under a key that holds it and the handle.
-/
def knot : Heap where
  tables := #[⟨[(.string "a", .table 1), (.string "b", .table 1),
      (.string "f", .function ⟨0, "f"⟩)], 0⟩,
    ⟨[(.index 1, .table 1), (.table 0, .boolean true)], 1⟩,
    ⟨[(.string "b", .boolean true), (.string "c", .boolean true)], 0⟩]
  handles := 1

/-- The text of the knot, where the key `c` is required. -/
def knotText : String :=
  "local ref = \x7b\x7d\nfor i = 1, 1 do ref[i] = \x7b\x7d end\n" ++
  "ref[1][1] = ref[1]\n" ++
  "ref[1][\x7b\n  a = ref[1],\n  b = ref[1],\n  f = nil --[[function: f]],\n\x7d] = true\n" ++
  "a = ref[1]\nb = ref[1]\nc = nil\nf = nil --[[function: f]]\n"

theorem load_attempt_knot :
    knot.WellFormed ∧
      (Save.attempt? (Save.parsing ({} : Options).limits) knot {} 0 (some 2) .tree).run.run () =
        (some ⟨.tree, .ok knotText⟩, ()) ∧
      ∃ env H' φ, load ({} : Options).limits knotText .empty = .ok (env, H') ∧
        Renumbers knot.kept H'.entries φ 0 env := by
  have hwf : knot.WellFormed := by decide +kernel
  have htried : ((Save.attempt? (Save.parsing ({} : Options).limits) knot {} 0 (some 2)
      .tree).run.run ()).1.map (fun a => (a.form, a.outcome)) = some (.tree, .ok knotText) := by
    decide +kernel
  obtain ⟨⟨form, outcome⟩, ha, heq⟩ := Option.map_eq_some_iff.1 htried
  obtain ⟨rfl, rfl⟩ := Prod.mk.inj heq
  have ha : (Save.attempt? (Save.parsing ({} : Options).limits) knot {} 0 (some 2) .tree).run.run
      () = (some ⟨.tree, .ok knotText⟩, ()) := Prod.ext ha (Subsingleton.elim _ _)
  exact ⟨hwf, ha, load_attempt hwf 0 (some 2) ha rfl .empty⟩

end LuaGraph
