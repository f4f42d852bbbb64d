import LuaGraph.Proofs.Blocks
import LuaGraph.Proofs.Chunk.Assigned
import LuaGraph.Proofs.Inline
import LuaGraph.Proofs.RoundTrip

/-!
# Loading inline texts

The inline text of a value (`to_string_inline_with_options`), assigned to a name, gives the value
back wherever it is loaded. The writer and the parser do not count the same thing, though: the
writer looks at the nesting of tables (`write_table`), while every key and every value takes a level
of the parser (`subexpr`), and some of them more than one. So it is not enough that the writer
accepts the value under the same limits.

* `OpensWithin` is the number of levels that a value takes: one around the keys and values of a
  table, one for an atom, one more for a sign, and two more for an operation in parentheses.
* The levels are the height of the term of the value (`opensWithin_iff`), and at most three more
  than its tables are nested.

Headline: **`load_inline_iff`**: exactly if there are these levels.
-/

namespace LuaGraph

open Chunk

/-! ## Levels -/

namespace Heap

/-- The keys and values in a value take so many levels at most. -/
def OpensWithin (H : Heap) : Nat → Value → Prop
  | 0, _ => False
  | levels + 1, v =>
    match v.view with
    | .inl a => a.height ≤ levels + 1
    | .inr t => ∀ e ∈ H.writable t, H.OpensWithin levels e.1 ∧ H.OpensWithin levels e.2

instance decidableOpensWithin (H : Heap) :
    (levels : Nat) → (v : Value) → Decidable (H.OpensWithin levels v)
  | 0, _ => .isFalse id
  | levels + 1, v =>
    match h : v.view with
    | .inl a => decidable_of_iff (a.height ≤ levels + 1) (by rw [OpensWithin, h])
    | .inr t =>
      have (w : Value) : Decidable (H.OpensWithin levels w) := decidableOpensWithin H levels w
      decidable_of_iff (∀ e ∈ H.writable t, H.OpensWithin levels e.1 ∧ H.OpensWithin levels e.2)
        (by rw [OpensWithin, h])

section

variable {H : Heap} {v : Value} {depth n : Nat}

/-- Three levels below the innermost tables are enough. -/
theorem opensWithin_of_nestsWithin (h : H.NestsWithin n v) : H.OpensWithin (n + 3) v := by
  induction n generalizing v with
  | zero =>
    cases hv : v.view with
    | inl a =>
      rw [OpensWithin, hv]
      exact (Term.Flat.atom a).height_le
    | inr t =>
      cases v with
      | table t => exact h.elim
      | _ => cases hv
  | succ n ih =>
    cases hv : v.view with
    | inl a =>
      rw [OpensWithin, hv]
      exact Nat.le_trans (Term.Flat.atom a).height_le (Nat.le_add_left 3 _)
    | inr t =>
      cases v with
      | table u =>
        cases hv
        exact fun e he => ⟨ih (h e he).1, ih (h e he).2⟩
      | _ => cases hv

/-- The place of a value in a sequence takes one level. -/
theorem height_index {i : Nat} (h : i < 2 ^ 63) :
    (termOf H (fun _ => none) depth (.index i)).height = 1 := by
  have hterm : termOf H (fun _ => none) depth (.index i) =
      .atom (.number (.integer (Int64.ofNat i))) := termOf_atom rfl
  have hi := Int64.toInt_ofNat_of_lt h
  rw [hterm]
  show (Number.spelling (.integer (Int64.ofNat i))).height = 1
  unfold Number.spelling
  dsimp only
  rw [hi, if_neg (by omega), decide_eq_false (by omega)]
  rfl

theorem fieldsHeight_le_iff {fs : List Field} :
    Term.fieldsHeight fs ≤ n ↔ ∀ f ∈ fs, Term.fieldHeight f ≤ n := by
  induction fs with
  | nil => simp [Term.fieldsHeight]
  | cons f fs ih => rw [Term.fieldsHeight, Nat.max_le, ih, List.forall_mem_cons]

/-- A table is as high as its keys and values, whether they are written with their keys or not. -/
theorem fieldsHeight_fieldsOf_le_iff {l : Listing} (hl : l.items.length + 1 < 2 ^ 63) :
    Term.fieldsHeight (Term.fieldsOf (termOf H (fun _ => none) depth) l) ≤ n ↔
      ∀ e ∈ l.pairs, (termOf H (fun _ => none) depth e.1).height ≤ n ∧
        (termOf H (fun _ => none) depth e.2).height ≤ n := by
  rw [fieldsHeight_le_iff, Sketch.fieldsOf_eq, List.forall_mem_map]
  constructor
  · intro h e he
    rcases List.mem_append.1 he with he | he
    · obtain ⟨⟨v, i⟩, hv, rfl⟩ := List.mem_map.1 he
      obtain ⟨-, hi, -⟩ := List.mem_zipIdx hv
      have hmem : v ∈ l.items := List.fst_mem_of_mem_zipIdx hv
      have hv : (termOf H (fun _ => none) depth v).height ≤ n :=
        h (.inl v) (List.mem_append_left _ (List.mem_map_of_mem hmem))
      refine ⟨?_, hv⟩
      rw [height_index (by omega)]
      exact Nat.le_trans (Parse.height_pos _) hv
    · exact Nat.max_le.1 (h (.inr e) (List.mem_append_right _ (List.mem_map_of_mem he)))
  · rintro h (v | e) hx
    · have hv : v ∈ l.items := by simpa [Sketch.partsOf] using hx
      rw [← List.zipIdx_map_fst 1 l.items] at hv
      obtain ⟨⟨_, i⟩, hmem, rfl⟩ := List.mem_map.1 hv
      exact (h _ (List.mem_append_left _ (List.mem_map_of_mem hmem))).2
    · have he : e ∈ l.fields := by simpa [Sketch.partsOf] using hx
      exact Nat.max_le.2 (h e (List.mem_append_right _ he))

variable (h : H.WellFormed)
include h

theorem length_items_lt (t : TableId) : (H.listing t).items.length + 1 < 2 ^ 63 := by
  obtain ⟨hwf, hcountable⟩ := h.tables t
  have hrun := hwf.run_le hcountable
  have hlength : (H.listing t).items.length = (H.table t).run := by
    rw [(Listing.lists_listing H t).items, List.length_map, List.length_range]
  unfold Table.Countable at hcountable
  omega

/-- **The levels of a value are the height of its term.** -/
theorem opensWithin_iff (hreaches : Sketch.Reaches H depth v) :
    H.OpensWithin n v ↔ (termOf H (fun _ => none) depth v).height ≤ n := by
  induction n generalizing depth v with
  | zero =>
    have := Parse.height_pos (termOf H (fun _ => none) depth v)
    exact iff_of_false id (by omega)
  | succ n ih =>
    cases hv : v.view with
    | inl a =>
      rw [OpensWithin, hv, termOf_atom hv]
      rfl
    | inr t =>
      cases v with
      | table u =>
        cases hv
        cases depth with
        | zero =>
          rw [Sketch.Reaches, termOf_zero rfl] at hreaches
          cases hreaches
        | succ depth =>
          rw [Sketch.Reaches, termOf_succ rfl, Term.isTooDeep, Sketch.reaches_pairs_iff] at hreaches
          rw [termOf_succ rfl, Term.height, Nat.add_le_add_iff_right,
            fieldsHeight_fieldsOf_le_iff (length_items_lt h t)]
          show (∀ e ∈ H.writable t, _) ↔ _
          refine forall_congr' fun e => ?_
          rw [← show e ∈ (H.listing t).pairs ↔ e ∈ H.writable t from (perm_pairs h t).mem_iff]
          refine forall_congr' fun he => ?_
          rw [ih (hreaches e he).1, ih (hreaches e he).2]
      | _ => cases hv

end

end Heap

/-! ## The document of a tree -/

namespace Sketch

variable {H : Heap} {v : Value} {depth : Nat}

/-- The tables met in a value are the value itself and the children of those. -/
theorem perm_metIn (hreaches : Reaches H depth v) :
    (metIn H depth v).Perm (v.table?.toList ++ (metIn H depth v).flatMap H.children) := by
  have hsucc : v.table?.toList.flatMap (written H.children (fun _ => false) (depth + 1)) =
      metIn H depth v := writtenIn_succ v hreaches
  have hall (ts : List TableId) : unslotted (fun _ => false) ts = ts :=
    List.filter_eq_self.2 fun _ _ => rfl
  have hperm := perm_written_inner H.children (fun _ => false) depth v.table?.toList
  rw [hsucc, hall, hall] at hperm
  exact hperm

/-- Every table that can be reached from a value is met in it. -/
theorem mem_metIn_of_reach (hreaches : Reaches H depth v) {t : TableId}
    (ht : Census.Reach H.children v.table?.toList t) : t ∈ metIn H depth v := by
  have hperm := perm_metIn hreaches
  induction ht with
  | root ht => exact hperm.mem_iff.2 (List.mem_append_left _ ht)
  | child _ ht ih =>
    exact hperm.mem_iff.2 (List.mem_append_right _ (List.mem_flatMap.2 ⟨_, ih, ht⟩))

end Sketch

section

variable {H : Heap} {v : Value} {depth : Nat}

/-- The entry that binds a value to the name. -/
def bound (v : Value) : List Entry := [(.string "x", v)]

theorem tablesOf_bound (v : Value) : Listing.tablesOf (bound v) = v.table?.toList := by
  cases v <;> rfl

theorem inHeap_bound (hv : v.InHeap H) : ∀ e ∈ bound v, e.1.InHeap H ∧ e.2.InHeap H := by
  intro e he
  obtain rfl := List.mem_singleton.1 he
  exact ⟨nofun, hv⟩

variable (h : H.WellFormed) (hv : v.InHeap H) (hreaches : Sketch.Reaches H depth v)
  (hnodup : (Sketch.metIn H depth v).Nodup)
include h hv hreaches hnodup

/-- **No table in a tree is shared.** -/
theorem shared_bound : (Save.censusOf H (bound v)).shared = [] := by
  have hin := inHeap_bound hv
  have hcount (t : TableId) : (Save.censusOf H (bound v)).count t = v.table?.toList.count t +
      ((Save.censusOf H (bound v)).all.flatMap H.children).count t := by
    rw [← tablesOf_bound, ← filterMap_values]
    exact Census.count_eq h (inHeap_values hin) t
  have hsub : (Save.censusOf H (bound v)).all ⊆ Sketch.metIn H depth v := fun t ht =>
    Sketch.mem_metIn_of_reach hreaches (tablesOf_bound v ▸ (mem_censusOf_iff h hin).1 ht)
  obtain ⟨ts, hts, hle⟩ := List.subperm_of_subset (sound_censusOf h hin).nodup hsub
  refine List.filter_eq_nil_iff.2 fun t _ => ?_
  rw [decide_eq_true_eq, Nat.not_lt, hcount, ← (hts.flatMap_right H.children).count_eq]
  -- it stands where it is met, so once
  have honce := List.nodup_iff_count_le_one.1 hnodup t
  rw [(Sketch.perm_metIn hreaches).count_eq, List.count_append] at honce
  exact Nat.le_trans (Nat.add_le_add_left ((hle.flatMap H.children).count_le t) _) honce

end

section

variable {H : Heap} {o : Options} {v : Value}

/-- The document that binds a tree has no slots. -/
theorem ofBindings_bound {c : Census} (hc : c.shared = []) :
    Document.ofBindings H o .tree c (bound v) =
      .single "x" (termOf H (fun _ => none) o.limits.maxDepth v) := by
  have hslots : Document.slotted .tree c = [] := hc
  have hkey : termOf H (fun _ => none) o.limits.maxDepth (.string "x") = .atom (.string "x") :=
    termOf_atom rfl
  unfold Document.ofBindings
  rw [hslots, Document.single, ← hkey]
  rfl

variable (h : H.WellFormed) (hv : v.InHeap H)
  (hreaches : Sketch.Reaches H o.limits.maxDepth v)
  (hnodup : (Sketch.metIn H o.limits.maxDepth v).Nodup)
include h hv hreaches hnodup

theorem faithful_bound : Faithful H [] o.limits.maxDepth (bound v) := by
  have hshared := shared_bound h hv hreaches hnodup
  have hin := inHeap_bound hv
  have hslots : Document.slotted .tree (Save.censusOf H (bound v)) = [] := hshared
  have hdeep : (Document.ofBindings H o .tree (Save.censusOf H (bound v)) (bound v)).isTooDeep =
      false := by
    rw [ofBindings_bound hshared]
    have hterm : (termOf H (fun _ => none) o.limits.maxDepth v).isTooDeep = false := hreaches
    simp [Document.isTooDeep, Document.single, Binding.isTooDeep, Term.isTooDeep, hterm]
  have hkey : ∀ e ∈ bound v, e.1.IsKey ∧ e.1.isHandle = false := by
    intro e he
    obtain rfl := List.mem_singleton.1 he
    exact ⟨rfl, rfl⟩
  rw [← hslots]
  exact faithful h hin (List.nodup_singleton _) hkey
    ((shallow_iff (sound_censusOf h hin).nodup).1 hdeep)

/-- **Running the assignment of a tree makes a copy.** -/
theorem run_single (H₀ : Heap) : ∃ φ m,
    run (Document.single "x" (termOf H (fun _ => none) o.limits.maxDepth v)).program H₀ =
      .ok (m.environment, m.heap) ∧
      Copies H φ (IsMet H [] o.limits.maxDepth (bound v)) (bound v) m := by
  have hshared := shared_bound h hv hreaches hnodup
  have hslots : Document.slotted .tree (Save.censusOf H (bound v)) = [] := hshared
  have hf := faithful_bound h hv hreaches hnodup
  rw [← hslots] at hf ⊢
  rw [← ofBindings_bound hshared]
  exact run_program h (sound_censusOf h (inHeap_bound hv)).nodup hf H₀

end

/-! ## What is bound -/

namespace Heap

/-- The heap with one table more, which binds a name to a value. -/
def binding (H : Heap) (name : String) (v : Value) : Heap :=
  (H.add (Table.empty.write (.string name) v)).2

variable {H : Heap} {name : String} {v : Value} {t : TableId}

/-- The new table keeps the value, unless it is nil or a handle. -/
theorem kept_binding_size : (H.binding name v).kept H.size =
    if v.isKept then [(.string name, v)] else [] := by
  unfold kept binding
  rw [table_add, if_pos rfl, Table.entries_write_empty]
  cases v <;> rfl

theorem kept_binding (ht : t < H.size) : (H.binding name v).kept t = H.kept t := by
  unfold kept binding
  rw [table_add, if_neg (Nat.ne_of_lt ht)]

/-- What can be reached from the new table was there before, and is met in the value. -/
theorem isMet_of_leads_binding (h : H.WellFormed) (hv : v.InHeap H) {depth : Nat}
    (hf : Faithful H [] depth (bound v)) (ht : Leads (H.binding "x" v).kept H.size t) :
    t < H.size ∧ IsMet H [] depth (bound v) t := by
  induction ht with
  | @root t ht =>
    have hroot : t ∈ v.table?.toList := by
      rw [kept_binding_size] at ht
      split at ht
      · rwa [← tablesOf_bound]
      · exact absurd ht List.not_mem_nil
    refine ⟨?_, hf.roots t (tablesOf_bound v ▸ hroot)⟩
    cases v with
    | table u => exact hv t (List.mem_singleton.1 hroot ▸ rfl)
    | _ => exact absurd hroot List.not_mem_nil
  | @child t u _ ht ih =>
    obtain ⟨hlt, hmet⟩ := ih
    rw [kept_binding hlt] at ht
    obtain ⟨e, he, hvalue⟩ := Listing.mem_tablesOf.1 ht
    obtain ⟨hmem, hh⟩ := List.mem_filter.1 he
    rw [Bool.and_eq_true, Bool.not_eq_true'] at hh
    obtain ⟨hk, hw⟩ := h.closed u e hmem
    exact ⟨hvalue.elim (hk t) (hw t),
      hf.closed u hmet t (Heap.mem_children.2 ⟨e, (Heap.mem_pairs h).2 ⟨hmem, hh.1⟩, hvalue⟩)⟩

end Heap

section

variable {H : Heap} {v : Value} {depth : Nat} {m : Machine} {φ : TableId → TableId}

/-- **A copy of the value under the name** is what the new table binds, up to renumbering. -/
theorem Copies.renumbers (h : H.WellFormed) (hv : v.InHeap H)
    (hf : Faithful H [] depth (bound v))
    (hcopies : Copies H φ (IsMet H [] depth (bound v)) (bound v) m) :
    Renumbers (H.binding "x" v).kept m.heap.entries φ H.size m.environment := by
  have hmet {u : TableId} (hu : Leads (H.binding "x" v).kept H.size u) :=
    Heap.isMet_of_leads_binding h hv hf hu
  have hroot : (m.heap.entries m.environment).Perm
      (renumberedEntries φ ((H.binding "x" v).kept H.size)) := by
    rw [Heap.entries, hcopies.environment, Heap.kept_binding_size]
    cases v <;> exact .refl _
  have htables (u : TableId) (hu : Leads (H.binding "x" v).kept H.size u) :
      (m.heap.entries (φ u)).Perm (renumberedEntries φ ((H.binding "x" v).kept u)) := by
    rw [Heap.entries, hcopies.tables u (hmet hu).2, Heap.kept_binding (hmet hu).1]
    exact perm_copyOf_pairs h u
  exact ⟨hroot, htables, fun u w hu hw => hcopies.injective u w (hmet hu).2 (hmet hw).2,
    fun _ => leads_iff hroot htables⟩

end

/-! ## Loading -/

/-- **The inline text of a value is loaded exactly if there are levels enough for it**, three more
than its tables are nested at most; and then its name is bound to the value up to renumbering,
without the entries that hold handles, and to nothing if the value is nil or a handle. -/
theorem load_inline_iff {H : Heap} (h : H.WellFormed) {o : Options} {v : Value} (hv : v.InHeap H)
    {text : String} (hinline : H.inline? o v = some (some text)) {limits : Limits}
    (hc : distinct (constantsIn text) + 1 ≤ limits.maxConstants) (H₀ : Heap) :
    ((∃ env H', load limits ("x = " ++ text) H₀ = .ok (env, H')) ↔
      H.OpensWithin limits.maxDepth v) ∧
    (∀ env H', load limits ("x = " ++ text) H₀ = .ok (env, H') →
      ∃ φ, Renumbers (H.binding "x" v).kept H'.entries φ H.size env) ∧
    H.OpensWithin (o.limits.maxDepth + 3) v := by
  obtain ⟨-, htree, hnests, -, htext⟩ := ((Heap.inline?_eq_some_iff h o v).1 text).1 hinline
  have hreaches := (Heap.reaches_iff h).2 hnests
  have hnodup := (Heap.perm_walk h _ v).nodup_iff.1 (htree o.limits.maxDepth)
  obtain rfl := htext _ (Nat.le_refl _)
  have hwritable : (termOf H (fun _ => none) o.limits.maxDepth v).Writable 0 :=
    writable_termOf (by rintro t i ⟨⟩) hreaches
  have hname : ("x = " : String) = "x" ++ " = " := rfl
  rw [Heap.compactText, constantsIn_text .compact hwritable] at hc
  rw [Heap.compactText, hname]
  obtain ⟨φ, m, hrun, hcopies⟩ := run_single h hv hreaches hnodup H₀
  rw [Heap.opensWithin_iff h hreaches]
  generalize termOf H (fun _ => none) o.limits.maxDepth v = t at *
  have hparse (body : List Stat) : parse limits ("x" ++ " = " ++ t.text .compact 0) = .ok body ↔
      body = (Document.single "x" t).program ∧ t.height ≤ limits.maxDepth :=
    parse_single_iff (by decide) (by decide) .compact hwritable hc
  have hload (env : TableId) (H' : Heap) :
      load limits ("x" ++ " = " ++ t.text .compact 0) H₀ = .ok (env, H') ↔
        t.height ≤ limits.maxDepth ∧ (m.environment, m.heap) = (env, H') := by
    unfold load
    cases hp : parse limits ("x" ++ " = " ++ t.text .compact 0) with
    | ok body =>
      obtain ⟨rfl, hlevels⟩ := (hparse body).1 hp
      dsimp only
      rw [hrun, Except.ok.injEq, and_iff_right hlevels]
    | error e =>
      refine iff_of_false (by simp) fun hlevels => ?_
      cases hp.symm.trans ((hparse _).2 ⟨rfl, hlevels.1⟩)
  refine ⟨⟨?_, fun hlevels => ⟨_, _, (hload _ _).2 ⟨hlevels, rfl⟩⟩⟩, ?_,
    Heap.opensWithin_of_nestsWithin hnests⟩
  · rintro ⟨env, H', hrun⟩
    exact ((hload env H').1 hrun).1
  · intro env H' hrun
    cases ((hload env H').1 hrun).2
    exact ⟨φ, hcopies.renumbers h hv (faithful_bound h hv hreaches hnodup)⟩

theorem load_inline_branching :
    (Heap.branching.WellFormed ∧ Value.InHeap Heap.branching (.table 0) ∧
      Heap.branching.inline? .compact (.table 0) =
        some (some "\x7b\x7ba = 2\x7d, [\x7b\x7d] = true\x7d") ∧
      distinct (constantsIn "\x7b\x7ba = 2\x7d, [\x7b\x7d] = true\x7d") + 1 ≤
        Options.compact.limits.maxConstants) ∧
    ∃ env H' φ, load Options.compact.limits "x = \x7b\x7ba = 2\x7d, [\x7b\x7d] = true\x7d"
        .empty = .ok (env, H') ∧
      Renumbers (Heap.branching.binding "x" (.table 0)).kept H'.entries φ Heap.branching.size
        env := by
  have hwf : Heap.branching.WellFormed := by decide
  have hin : Value.InHeap Heap.branching (.table 0) := by
    rintro t ⟨⟩
    decide
  have hinline : Heap.branching.inline? .compact (.table 0) =
      some (some "\x7b\x7ba = 2\x7d, [\x7b\x7d] = true\x7d") := by decide +kernel
  have hc : distinct (constantsIn "\x7b\x7ba = 2\x7d, [\x7b\x7d] = true\x7d") + 1 ≤
      Options.compact.limits.maxConstants := by decide +kernel
  obtain ⟨hiff, hrenumbers, -⟩ := load_inline_iff hwf hin hinline hc .empty
  obtain ⟨env, H', hload⟩ := hiff.2 (by decide)
  obtain ⟨φ, hφ⟩ := hrenumbers env H' hload
  exact ⟨⟨hwf, hin, hinline, hc⟩, env, H', φ, hload, hφ⟩

/-- The options that allow one level. -/
def shallow : Options := { limits := { maxDepth := 1 } }

/-- A heap with a table of one number. -/
def lone : Heap where
  tables := #[⟨[(.index 1, .number (.integer 1))], 1⟩]

/-- **That tables are nested within the greatest depth is not enough** for the text to be loaded. -/
theorem not_load_inline_lone :
    (lone.WellFormed ∧ Value.InHeap lone (.table 0) ∧
      lone.inline? shallow (.table 0) = some (some "\x7b1\x7d") ∧
      distinct (constantsIn "\x7b1\x7d") + 1 ≤ shallow.limits.maxConstants) ∧
    check shallow.limits "x = \x7b1\x7d" =
      .error (.grammar 1 6 .tooManyLevels) ∧
    (load shallow.limits "x = \x7b1\x7d" .empty).isOk = false := by
  have hwf : lone.WellFormed := by decide
  have hin : Value.InHeap lone (.table 0) := by
    rintro t ⟨⟩
    decide
  have hinline : lone.inline? shallow (.table 0) = some (some "\x7b1\x7d") := by decide +kernel
  have hc : distinct (constantsIn "\x7b1\x7d") + 1 ≤ shallow.limits.maxConstants := by
    decide +kernel
  exact ⟨⟨hwf, hin, hinline, hc⟩, by decide +kernel, by decide +kernel⟩

end LuaGraph
