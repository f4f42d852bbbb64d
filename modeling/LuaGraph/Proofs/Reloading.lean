import LuaGraph.Proofs.Alike.Complete
import LuaGraph.Proofs.Layout

/-!
# What is loaded is alike

A comparison (`deep_eq`) always comes to an end, and finds any values alike that some simulation
relates. Tables that hold the same up to the numbers of tables and the order of entries are such
values, and so is the environment of a loaded text (`from_str`) if what was saved is stripped of its
handles.

Handles are lost when bindings are saved, and with them the entries that they stand in. A table with
fewer entries is never alike, so an environment differs from bindings that lead to a handle.

Headlines:
* `simulation_of_copies`: two copies of the same are related by a simulation.
* **`alike_complete`**: comparisons are complete, and in particular for what was loaded.
* **`not_alike_of_handle`**: bindings of a function are not alike what is loaded.
-/

namespace LuaGraph

open Chunk

/-! ## Copies of the same -/

section

variable {H : Heap} {R : TableId → TableId → Prop} {φ ψ : TableId → TableId} {t x y : TableId}
  {es : List Entry} {k v : Value}

theorem Value.renumbered_of_not_table (h : v.isTable = false) : v.renumbered φ = v := by
  cases v with
  | table t => cases h
  | _ => rfl

theorem Value.isTable_renumbered (φ : TableId → TableId) (v : Value) :
    (v.renumbered φ).isTable = v.isTable := by
  cases v <;> rfl

/-- Values under different numbers correspond, if the tables do. -/
theorem related_renumbered (h : ∀ u, v = .table u → R (φ u) (ψ u)) :
    Related R (v.renumbered φ) (v.renumbered ψ) := by
  cases v with
  | table u => exact .tables (h u rfl)
  | _ => exact .refl R _

/-- An entry under other numbers is a counterpart of itself. -/
theorem counterpart_renumbered (hk : k.IsKey)
    (hkey : ∀ u, k = .table u → R (φ u) (ψ u)) (hvalue : ∀ u, v = .table u → R (φ u) (ψ u)) :
    Counterpart R (k.renumbered φ, v.renumbered φ) (k.renumbered ψ, v.renumbered ψ) where
  tableKey _ := related_renumbered hkey
  scalarKey hnot := by
    dsimp only at hnot ⊢
    rw [Value.isTable_renumbered] at hnot
    rw [Value.renumbered_of_not_table hnot, Value.renumbered_of_not_table hnot]
    exact hk.same_self
  value := related_renumbered hvalue

/-- Tables that hold the same under different numbers match. -/
theorem matches_of_perm (hx : (H.entries x).Perm (renumberedEntries φ es))
    (hy : (H.entries y).Perm (renumberedEntries ψ es)) (hkeys : ∀ e ∈ es, e.1.IsKey)
    (hR : ∀ u ∈ Listing.tablesOf es, R (φ u) (ψ u)) : H.Matches R x y where
  size := by
    have hlength := hx.length_eq.trans (hy.length_eq.trans ?_).symm
    · exact hlength
    · simp [renumberedEntries]
  entries e he := by
    obtain ⟨⟨k, v⟩, hmem, rfl⟩ := List.mem_map.1 (hx.mem_iff.1 he)
    refine ⟨_, hy.mem_iff.2 (List.mem_map_of_mem hmem), ?_⟩
    exact counterpart_renumbered (hkeys _ hmem)
      (fun u hu => hR u (Listing.mem_tablesOf.2 ⟨_, hmem, .inl hu⟩))
      fun u hu => hR u (Listing.mem_tablesOf.2 ⟨_, hmem, .inr hu⟩)

/-- **Two copies of the same are related by a simulation.** -/
theorem simulation_of_copies {entries : TableId → List Entry}
    (hx : Renumbers entries H.entries φ t x) (hy : Renumbers entries H.entries ψ t y)
    (hkeys : ∀ u, ∀ e ∈ entries u, e.1.IsKey) :
    ∃ R, H.Simulation R ∧ R x y := by
  refine ⟨fun u w => u = x ∧ w = y ∨ ∃ v, Leads entries t v ∧ φ v = u ∧ ψ v = w, ?_,
    .inl ⟨rfl, rfl⟩⟩
  rintro u w (⟨rfl, rfl⟩ | ⟨v, hv, rfl, rfl⟩)
  · exact matches_of_perm hx.root hy.root (hkeys t) fun z hz => .inr ⟨z, .root hz, rfl, rfl⟩
  · exact matches_of_perm (hx.tables v hv) (hy.tables v hv) (hkeys v)
      fun z hz => .inr ⟨z, .child hv hz, rfl, rfl⟩

theorem renumberedEntries_id (es : List Entry) : renumberedEntries id es = es := by
  have hvalue (v : Value) : v.renumbered id = v := by cases v <;> rfl
  simp [renumberedEntries, hvalue]

/-- Every table is a copy of itself. -/
theorem Renumbers.refl (entries : TableId → List Entry) (t : TableId) :
    Renumbers entries entries id t t where
  root := by rw [renumberedEntries_id]
  tables u _ := by rw [renumberedEntries_id, id]
  injective u w _ _ heq := heq
  leads_iff u := by simp

end

/-! ## The tables beside a copy -/

section

variable {H H' : Heap} {φ ψ : TableId → TableId} {bindings env b t : TableId}

theorem isKey_of_mem_kept (h : H.WellFormed) {e : Entry} (he : e ∈ H.kept t) :
    e.1.IsKey ∧ e.1.isHandle = false := by
  obtain ⟨hmem, hh⟩ := List.mem_filter.1 he
  simp only [Bool.and_eq_true, Bool.not_eq_true'] at hh
  exact ⟨(h.tables t).1.isKey_of_mem hmem, hh.1⟩

theorem nodup_kept (h : H.WellFormed) (t : TableId) : ((H.kept t).map Prod.fst).Nodup :=
  (h.tables t).1.nodup.sublist (List.filter_sublist.map _)

/-- A table that was made: it holds what is kept of another one. -/
structure Made (H H' : Heap) (φ : TableId → TableId) (bindings t u : TableId) : Prop where
  perm : (H'.entries t).Perm (renumberedEntries φ (H.kept u))
  leads : ∀ w ∈ Listing.tablesOf (H.kept u), Leads H.kept bindings w

section

variable {u : TableId} (hmade : Made H H' φ bindings t u)
include hmade

theorem Made.exists_kept {e : Entry} (he : e ∈ H'.entries t) :
    ∃ e' ∈ H.kept u, e = (e'.1.renumbered φ, e'.2.renumbered φ) := by
  obtain ⟨e', he', rfl⟩ := List.mem_map.1 (hmade.perm.mem_iff.1 he)
  exact ⟨e', he', rfl⟩

theorem Made.closed {S : TableId → Prop} (hS : ∀ w, Leads H.kept bindings w → S (φ w)) :
    ∀ e ∈ H'.entries t, Heap.EntryIn S e := by
  intro e he
  obtain ⟨e', he', rfl⟩ := hmade.exists_kept he
  refine ⟨fun w hw => ?_, fun w hw => ?_⟩
  · obtain ⟨z, hz, rfl⟩ := Value.renumbered_eq_table.1 hw
    exact hS z (hmade.leads z (Listing.mem_tablesOf.2 ⟨e', he', .inl hz⟩))
  · obtain ⟨z, hz, rfl⟩ := Value.renumbered_eq_table.1 hw
    exact hS z (hmade.leads z (Listing.mem_tablesOf.2 ⟨e', he', .inr hz⟩))

/-- No key of a table that was made is a handle. -/
theorem Made.isKey (h : H.WellFormed) {e : Entry} (he : e ∈ H'.entries t) :
    e.1.IsKey ∧ e.1.isHandle = false := by
  obtain ⟨e', he', rfl⟩ := hmade.exists_kept he
  obtain ⟨hkey, hh⟩ := isKey_of_mem_kept h he'
  dsimp only
  rw [← Value.copied_eq_renumbered hh]
  refine ⟨hkey.copied hh, ?_⟩
  cases hk : e'.1 <;> simp_all [Value.copied, Value.isHandle, Value.kind]

theorem Made.nodup (h : H.WellFormed)
    (hinj : ∀ v w, Leads H.kept bindings v → Leads H.kept bindings w → φ v = φ w → v = w) :
    ((H'.entries t).map Prod.fst).Nodup := by
  have hcopied : (renumberedEntries φ (H.kept u)).map Prod.fst =
      (H.kept u).map fun e => e.1.copied φ := by
    rw [renumberedEntries, List.map_map]
    refine List.map_congr_left fun e he => ?_
    exact (Value.copied_eq_renumbered (isKey_of_mem_kept h he).2).symm
  rw [(hmade.perm.map Prod.fst).nodup_iff, hcopied]
  exact nodup_copied (nodup_kept h u) (fun e he => (isKey_of_mem_kept h he).2)
    fun v hv w hw => hinj v w (hmade.leads v hv) (hmade.leads w hw)

end

/-- **The old tables and those that were made are a region**, in which entries can be found. -/
theorem keyed_beside (h : H.WellFormed) (hl : H.Labelled)
    (hold : ∀ i < H.size, H'.entries i = H.entries i) (hsize : H.size ≤ H'.size)
    (hren : Renumbers H.kept H'.entries φ bindings env) (henv : env < H'.size)
    (hlt : ∀ u, Leads H.kept bindings u → φ u < H'.size) :
    Heap.Keyed (fun t => t < H.size ∨ t = env ∨ ∃ u, Leads H.kept bindings u ∧ φ u = t) H' := by
  generalize hS : (fun t => t < H.size ∨ t = env ∨ ∃ u, Leads H.kept bindings u ∧ φ u = t) = S
  have hcases (t : TableId) (ht : S t) :
      t < H.size ∧ H'.entries t = H.entries t ∨ ∃ u, Made H H' φ bindings t u := by
    rw [← hS] at ht
    rcases ht with ht | rfl | ⟨u, hu, rfl⟩
    · exact .inl ⟨ht, hold t ht⟩
    · exact .inr ⟨bindings, hren.root, fun w hw => .root hw⟩
    · exact .inr ⟨u, hren.tables u hu, fun w hw => .child hu hw⟩
  have hmem (w : TableId) (hw : Leads H.kept bindings w) : S (φ w) :=
    hS ▸ .inr (.inr ⟨w, hw, rfl⟩)
  have hnot (t : TableId) (ht : S t) {e : Entry} (he : e ∈ H'.entries t)
      (hh : e.1.isHandle = true) : e ∈ H.entries t := by
    rcases hcases t ht with ⟨-, heq⟩ | ⟨u, hmade⟩
    · rwa [← heq]
    · exact absurd hh (Bool.eq_false_iff.1 (hmade.isKey h he).2)
  refine ⟨⟨fun t ht => ?_, fun t ht => ?_⟩, fun t ht e he => ?_, fun t ht => ?_,
    fun x y hx hy e he e' he' hh heq => ?_⟩
  · rw [← hS] at ht
    rcases ht with ht | rfl | ⟨u, hu, rfl⟩
    · exact Nat.lt_of_lt_of_le ht hsize
    · exact henv
    · exact hlt u hu
  · rcases hcases t ht with ⟨-, heq⟩ | ⟨u, hmade⟩
    · intro e he
      rw [heq] at he
      obtain ⟨hk, hv⟩ := h.closed t e he
      exact hS ▸ ⟨fun w hw => .inl (hk w hw), fun w hw => .inl (hv w hw)⟩
    · exact hmade.closed hmem
  · rcases hcases t ht with ⟨-, heq⟩ | ⟨u, hmade⟩
    · rw [heq] at he
      exact (h.tables t).1.isKey_of_mem he
    · exact (hmade.isKey h he).1
  · rcases hcases t ht with ⟨-, heq⟩ | ⟨u, hmade⟩
    · exact heq ▸ (h.tables t).1.nodup
    · exact hmade.nodup h hren.injective
  · -- handles among the keys are old
    have hh' : e'.1.isHandle = true := by
      cases hk : e.1 <;> cases hk' : e'.1 <;>
        simp_all [Value.same, Value.isHandle, Value.kind]
    exact hl x y e (hnot x hx he hh) e' (hnot y hy he' hh') hh heq

end

/-! ## Loading -/

section

variable {H H' : Heap} {o : Options} {form : Form} {bindings env : TableId}
  {required : Option TableId} {text : String}

/-- What was loaded stands beside the old tables, and is a copy of what is kept of the bindings. -/
structure Loaded (H H' : Heap) (φ : TableId → TableId) (bindings env : TableId) : Prop where
  entries : ∀ i < H.size, H'.entries i = H.entries i
  size_le : H.size ≤ H'.size
  renumbers : Renumbers H.kept H'.entries φ bindings env
  environment : env < H'.size
  lt : ∀ u, Leads H.kept bindings u → φ u < H'.size

/-- **Loading what was saved makes a copy** of what is kept of the bindings, and changes nothing. -/
theorem loaded_of_load (h : H.WellFormed)
    (hr : Save.rendering H o bindings required form = .ok text) {limits : Limits}
    (hload : load limits text H = .ok (env, H')) : ∃ φ, Loaded H H' φ bindings env := by
  obtain ⟨hdeep, rfl⟩ := Save.rendering_eq_ok_iff.1 hr
  have hwritable := Save.writable_document h hdeep
  unfold load at hload
  cases hbody : parse limits
      ((Save.document H o bindings required form).text (Save.layoutOf o)) with
  | error e =>
    rw [hbody] at hload
    cases hload
  | ok body =>
    rw [hbody, eq_program_of_parse _ hwritable hbody] at hload
    have hin (e : Entry) (he : e ∈ Save.entriesOf H bindings required) :=
      inHeap_of_mem_entriesOf h he
    have hsound := sound_censusOf h hin
    have hf := faithful h hin (nodup_entriesOf h bindings required)
      (fun e he => isKey_of_mem_entriesOf h he) ((shallow_iff hsound.nodup).1 hdeep)
    obtain ⟨φ, m, hrun, hcopies, hbeside⟩ := run_program_beside h hsound.nodup hf H
    cases hrun.symm.trans hload
    have hmet (u : TableId) (hu : Leads H.kept bindings u) :=
      hf.isMet_of_leads h (fun e he => mem_entriesOf_of_mem_kept required he) hu
    have hroot : (m.heap.entries m.environment).Perm (renumberedEntries φ (H.kept bindings)) := by
      rw [Heap.entries, hcopies.environment]
      exact perm_copyOf_entriesOf h bindings required
    have htables (u : TableId) (hu : Leads H.kept bindings u) :
        (m.heap.entries (φ u)).Perm (renumberedEntries φ (H.kept u)) := by
      rw [Heap.entries, hcopies.tables u (hmet u hu)]
      exact perm_copyOf_pairs h u
    exact ⟨φ, hbeside.entries, Nat.le_of_lt hbeside.size_lt,
      ⟨hroot, htables, fun u w hu hw => hcopies.injective u w (hmet u hu) (hmet w hw),
        fun _ => leads_iff hroot htables⟩,
      hbeside.environment ▸ hbeside.size_lt, fun u hu => hbeside.lt u (hmet u hu)⟩

/-! ## What is found alike -/

variable {φ ψ : TableId → TableId} {b : TableId}

/-- A copy in the old heap is still one. -/
theorem Renumbers.of_eq {entries entries₁ entries₂ : TableId → List Entry} {t : TableId}
    (hren : Renumbers entries entries₁ φ t b)
    (heq : ∀ u, u = b ∨ Leads entries₁ b u → entries₂ u = entries₁ u) :
    Renumbers entries entries₂ φ t b := by
  have hroot : (entries₂ b).Perm (renumberedEntries φ (entries t)) := by
    rw [heq b (.inl rfl)]
    exact hren.root
  have htables (u : TableId) (hu : Leads entries t u) :
      (entries₂ (φ u)).Perm (renumberedEntries φ (entries u)) := by
    rw [heq (φ u) (.inr ((hren.leads_iff _).2 ⟨u, hu, rfl⟩))]
    exact hren.tables u hu
  exact ⟨hroot, htables, hren.injective, fun _ => LuaGraph.leads_iff hroot htables⟩

/-- **What was loaded is alike every table that holds what is kept of the bindings.** -/
theorem Loaded.alike (hloaded : Loaded H H' φ bindings env) (h : H.WellFormed) (hl : H.Labelled)
    (hb : b < H.size) (hcopy : Renumbers H.kept H.entries ψ bindings b) :
    H'.alike (.table env) (.table b) = true ∧ H'.alike (.table b) (.table env) = true := by
  have hkeyed := keyed_beside h hl hloaded.entries hloaded.size_le hloaded.renumbers
    hloaded.environment hloaded.lt
  have hkeys (u : TableId) (e : Entry) (he : e ∈ H.kept u) : e.1.IsKey := (isKey_of_mem_kept h he).1
  have hcopy' : Renumbers H.kept H'.entries ψ bindings b := hcopy.of_eq fun u hu =>
    hloaded.entries u (hu.elim (fun heq => heq ▸ hb) h.lt_of_leads)
  constructor
  · obtain ⟨R, hR, hrelated⟩ := simulation_of_copies hloaded.renumbers hcopy' hkeys
    refine hkeyed.alike_of_related hR ?_ ?_ (.tables hrelated)
    · rintro _ ⟨⟩
      exact .inr (.inl rfl)
    · rintro _ ⟨⟩
      exact .inl hb
  · obtain ⟨R, hR, hrelated⟩ := simulation_of_copies hcopy' hloaded.renumbers hkeys
    refine hkeyed.alike_of_related hR ?_ ?_ (.tables hrelated)
    · rintro _ ⟨⟩
      exact .inl hb
    · rintro _ ⟨⟩
      exact .inr (.inl rfl)

/-- Without handles everything is kept, so the bindings are a copy of what is kept of them. -/
theorem renumbers_kept_self
    (hnone : ∀ u, u = bindings ∨ Leads H.entries bindings u →
      ∀ e ∈ H.entries u, e.1.isHandle = false ∧ e.2.isHandle = false) :
    Renumbers H.kept H.entries id bindings bindings := by
  refine (Renumbers.refl H.kept bindings).of_eq fun u hu => ?_
  have hleads (u : TableId) (hu : Leads H.kept bindings u) : Leads H.entries bindings u := by
    have hsub {t w : TableId} (hw : w ∈ Listing.tablesOf (H.kept t)) :
        w ∈ Listing.tablesOf (H.entries t) := by
      obtain ⟨e, he, hv⟩ := Listing.mem_tablesOf.1 hw
      exact Listing.mem_tablesOf.2 ⟨e, List.mem_of_mem_filter he, hv⟩
    exact hu.mono (fun _ hw => .root (hsub hw)) fun _ _ hw => hsub hw
  refine (List.filter_eq_self.2 fun e he => ?_).symm
  obtain ⟨hk, hv⟩ := hnone u (hu.imp id (hleads u)) e he
  rw [hk, hv]
  rfl

/-- **Comparisons come to an end and are complete**: values that a simulation relates are found
alike, and so are isomorphic tables. What was saved and loaded is alike every table that holds what
is kept of the bindings, and so alike the bindings themselves if no handle can be reached. -/
theorem alike_complete (h : H.WellFormed) (hl : H.Labelled) :
    (∀ a b, a.InHeap H → b.InHeap H → ∃ s, H.Runs (.values a b) [] (H.alike a b) s ∧
      ∀ r s', H.Runs (.values a b) [] r s' → r = H.alike a b ∧ s' = s) ∧
    (∀ R, H.Simulation R → ∀ a b, a.InHeap H → b.InHeap H → Related R a b →
      H.alike a b = true) ∧
    (∀ φ x y, x < H.size → y < H.size → Renumbers H.entries H.entries φ x y →
      H.alike (.table x) (.table y) = true) ∧
    ∀ o form bindings required text limits env H',
      Save.rendering? H o bindings required form = some (.ok text) →
      load limits text H = .ok (env, H') →
      (∀ ψ b, b < H.size → Renumbers H.kept H.entries ψ bindings b →
        H'.alike (.table env) (.table b) = true ∧ H'.alike (.table b) (.table env) = true) ∧
      (bindings < H.size →
        (∀ u, u = bindings ∨ Leads H.entries bindings u →
          ∀ e ∈ H.entries u, e.1.isHandle = false ∧ e.2.isHandle = false) →
        H'.alike (.table env) (.table bindings) = true ∧
          H'.alike (.table bindings) (.table env) = true) := by
  have hkeyed := h.keyed hl
  refine ⟨fun a b ha hb => ?_, fun R hR a b ha hb hab => hkeyed.alike_of_related hR ha hb hab,
    fun φ x y hx hy hren => ?_, fun o form bindings required text limits env H' hr hload => ?_⟩
  · obtain ⟨s, hruns⟩ := Heap.exists_runs h.region (a := a) (b := b) ⟨ha, hb⟩
    exact ⟨s, hruns, fun r s' hother => hother.functional hruns⟩
  · have hkeys (u : TableId) (e : Entry) (he : e ∈ H.entries u) : e.1.IsKey :=
      (h.tables u).1.isKey e.1 (List.mem_map_of_mem he)
    obtain ⟨R, hR, hrelated⟩ := simulation_of_copies (Renumbers.refl H.entries x) hren hkeys
    exact hkeyed.alike_of_related hR (fun t ht => Value.table.inj ht ▸ hx)
      (fun t ht => Value.table.inj ht ▸ hy) (.tables hrelated)
  · obtain ⟨φ, hloaded⟩ := loaded_of_load h ((Save.rendering?_eq_some_iff h).1 hr).2 hload
    exact ⟨fun ψ b hb hcopy => hloaded.alike h hl hb hcopy,
      fun hb hnone => hloaded.alike h hl hb (renumbers_kept_self hnone)⟩

end

/-- Bindings with a table that holds itself, under a place and together with a table as a key. -/
def looped : Heap where
  tables := #[⟨[(.string "a", .table 1), (.string "b", .table 2)], 0⟩,
    ⟨[(.index 1, .table 1), (.table 2, .boolean true)], 1⟩, ⟨[(.index 1, .string "x")], 1⟩]

/-- The text of these bindings. -/
def loopedText : String :=
  "local ref = \x7b\x7d\nfor i = 1, 2 do ref[i] = \x7b\x7d end\n" ++
  "ref[1][1] = ref[1]\nref[1][ref[2]] = true\nref[2][1] = \"x\"\n" ++
  "a = ref[1]\nb = ref[2]\n"

theorem alike_complete_looped :
    looped.WellFormed ∧ looped.Labelled ∧ ∃ env H', load {} loopedText looped = .ok (env, H') ∧
      H'.alike (.table env) (.table 0) = true ∧ H'.alike (.table 0) (.table env) = true := by
  have hlooped : looped.WellFormed ∧ looped.Labelled ∧
      Save.rendering? looped {} 0 none .tree = some (.ok loopedText) ∧
      ∀ u < looped.size, ∀ e ∈ looped.entries u, e.1.isHandle = false ∧ e.2.isHandle = false := by
    decide +kernel
  have hok : (load {} loopedText looped).isOk = true := by decide +kernel
  obtain ⟨hwf, hl, hr, hnone⟩ := hlooped
  obtain ⟨⟨env, H'⟩, hload⟩ : ∃ r, load {} loopedText looped = .ok r := by
    cases hload : load {} loopedText looped with
    | ok r => exact ⟨r, rfl⟩
    | error e =>
      rw [hload] at hok
      cases hok
  obtain ⟨-, -, -, hreload⟩ := alike_complete hwf hl
  exact ⟨hwf, hl, env, H', hload,
    (hreload {} .tree 0 none loopedText {} env H' hr hload).2 (by decide)
      fun u _ e he => hnone u (Heap.lt_size_of_mem he) e he⟩

/-- Bindings of a function. -/
def handled : Heap where
  tables := #[⟨[(.string "f", .function ⟨0, "f"⟩)], 0⟩]
  handles := 1

/-- **What is loaded is not alike bindings of a function**, which is saved as nil. -/
theorem not_alike_of_handle :
    handled.WellFormed ∧ handled.Labelled ∧
      ((Save.save? (Save.parsing {}) handled {} 0 none).run.run ()).1 =
        some (.ok "f = nil --[[function: f]]\n") ∧
      (load {} "f = nil --[[function: f]]\n" handled).map
        (fun r => r.2.alike (.table r.1) (.table 0)) = .ok false := by
  decide +kernel

end LuaGraph
