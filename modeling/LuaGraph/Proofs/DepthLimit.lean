import LuaGraph.Proofs.Chunk.Nesting
import LuaGraph.Proofs.Graph.Calm
import LuaGraph.Proofs.Graph.Depth
import LuaGraph.Proofs.Layout

/-!
# The depth limit

A text is not written (`write_table` fails with `TooDeep`) where tables are nested deeper than the
loading program has levels. That is never rash: what is written without regard to the depth holds a
table constructor for every table, each inside the one of the table around it, so the parser runs
out of levels as well (`enter`).

Where a sort panics, nothing is written at any depth.

Headlines:
* **`attempt_eq_iff_check`**: in the tree form the writer gives up only on what the checker rejects.
* `attempt?_panics`: there is no text at all where a sort panics.
-/

namespace LuaGraph

open Chunk Chunk.Expr

/-! ## Constructors in the trees of terms -/

section

variable {H : Heap} {slot? : TableId → Option Nat} {depth n : Nat}

theorem nesting_constant (c : Constant) : c.expr.nesting = 0 := by cases c <;> rfl

theorem nesting_signedExpr {neg : Bool} {e : Expr} (h : e.nesting = 0) :
    (signedExpr neg e).nesting = 0 := by
  cases neg <;> exact h

theorem nesting_spelling (w : Spelling) : w.expr.nesting = 0 := by
  cases w with
  | literal neg c => exact nesting_signedExpr (nesting_constant c)
  | operation neg left op right =>
    rw [Spelling.expr, Expr.nesting, nesting_signedExpr (nesting_constant left),
      nesting_constant right]
    rfl

theorem nesting_atom (a : Atom) : a.expr.nesting = 0 := by
  cases a with
  | number n => exact nesting_spelling n.spelling
  | _ => rfl

theorem partsNesting_fieldParts_le_iff {fs : List Field} :
    partsNesting (Term.fieldParts fs) ≤ n ↔ ∀ f ∈ fs, partNesting (Term.fieldPart f) ≤ n := by
  induction fs with
  | nil => simp [Term.fieldParts, partsNesting]
  | cons f fs ih => rw [Term.fieldParts, partsNesting, Nat.max_le, ih, List.forall_mem_cons]

theorem partsNesting_fieldsOf_le_iff {l : Listing} :
    partsNesting (Term.fieldParts (Term.fieldsOf (termOf H slot? depth) l)) ≤ n ↔
      ∀ e ∈ l.pairs, (termOf H slot? depth e.1).expr.nesting ≤ n ∧
        (termOf H slot? depth e.2).expr.nesting ≤ n :=
  partsNesting_fieldParts_le_iff.trans (forall_fieldsOf_iff (P := fun t => t.expr.nesting ≤ n)
    (fun i => by
      rw [termOf_index, Term.expr, nesting_atom]
      exact Nat.zero_le n)
    (fun _ => Iff.rfl) fun _ _ => Nat.max_le)

/-- **A term is not cut off where its constructors end.** -/
theorem isTooDeep_of_nesting_le {v : Value} (h : (termOf H slot? depth v).isTooDeep = false)
    (hle : (termOf H slot? depth v).expr.nesting ≤ n) :
    (termOf H slot? n v).isTooDeep = false := by
  induction depth, v using termOf_induction slot? generalizing n with
  | atom depth v a hv =>
    rw [termOf_atom hv]
    rfl
  | slot depth t i hs =>
    rw [termOf_slot hs]
    rfl
  | tooDeep t hs =>
    rw [termOf_zero hs] at h
    cases h
  | table depth t hs ih =>
    rw [termOf_succ hs] at h hle
    -- the constructor of the table itself takes one off
    cases n with
    | zero => exact absurd hle (Nat.not_succ_le_zero _)
    | succ n =>
      have hpairs := partsNesting_fieldsOf_le_iff.1 (Nat.le_of_succ_le_succ hle)
      rw [termOf_succ hs]
      refine anyTooDeep_fieldsOf_iff.2 fun e he => ?_
      obtain ⟨hk, hv⟩ := isTooDeep_of_mem_pairs h he
      exact ⟨ih e.1 hk (hpairs e he).1, ih e.2 hv (hpairs e he).2⟩

/-- A term that is not cut off at two depths is the same at both. -/
theorem termOf_eq_of_shallow {v : Value} (h : (termOf H slot? depth v).isTooDeep = false)
    (h' : (termOf H slot? n v).isTooDeep = false) :
    termOf H slot? depth v = termOf H slot? n v := by
  rcases Nat.le_total depth n with hle | hle
  · exact (termOf_of_le h hle).symm
  · exact termOf_of_le h' hle

end

/-! ## Documents -/

theorem Fill.nesting_stat (f : Fill) :
    statNesting f.stat = max f.key.expr.nesting f.value.expr.nesting := by
  have hslot : (naturalConstant f.slot).expr.nesting = 0 := nesting_constant _
  simp [Fill.stat, statNesting, Expr.nesting, hslot]

/-- A key that is written as a name holds no constructor. -/
theorem Binding.nesting_stat (slots : Nat) (b : Binding) :
    statNesting (b.stat slots) = max b.key.expr.nesting b.value.expr.nesting := by
  unfold Binding.stat
  cases hname : b.globalName? slots with
  | none => simp [statNesting, Expr.nesting]
  | some name =>
    have hkey : b.key.expr.nesting = 0 := by
      unfold Binding.globalName? at hname
      cases hbare : b.key.bareName? with
      | none => simp [hbare] at hname
      | some name =>
        rw [eq_of_bareName? hbare]
        rfl
    simp [statNesting, Expr.nesting, hkey]

theorem bodyNesting_blockStats (split : Bool) (block : List Fill) :
    bodyNesting (Document.blockStats split block) = bodyNesting (block.map Fill.stat) := by
  cases split with
  | false => rfl
  | true => simp [Document.blockStats, bodyNesting, statNesting, Expr.nesting, argsNesting]

/-- The constructors in the statements of a document are those in its terms. -/
theorem nesting_le_of_program {d : Document} {n : Nat} (h : bodyNesting d.program ≤ n) :
    (∀ block ∈ d.blocks, ∀ f ∈ block, max f.key.expr.nesting f.value.expr.nesting ≤ n) ∧
      ∀ b ∈ d.bindings, max b.key.expr.nesting b.value.expr.nesting ≤ n := by
  rw [bodyNesting_le_iff] at h
  refine ⟨fun block hb f hf => ?_, fun b hb => ?_⟩
  · have hblock : bodyNesting (Document.blockStats d.split block) ≤ n :=
      bodyNesting_le_iff.2 fun s hs => h s (List.mem_append_left _
        (List.mem_append_right _ (List.mem_flatMap.2 ⟨block, hb, hs⟩)))
    rw [bodyNesting_blockStats] at hblock
    rw [← Fill.nesting_stat]
    exact bodyNesting_le_iff.1 hblock _ (List.mem_map_of_mem hf)
  · rw [← Binding.nesting_stat d.slots]
    exact h _ (List.mem_append_right _ (List.mem_map_of_mem hb))

section

variable {H : Heap} {o o' : Options} {form : Form} {c : Census} {es : List Entry}
  (hn : c.all.Nodup) (h : Shallow H o form c es)
include hn h

/-- Nothing is too deep under a limit that is no lower than the constructors are nested. -/
theorem Shallow.of_nesting_le
    (hle : bodyNesting (Document.ofBindings H o form c es).program ≤ o'.limits.maxDepth) :
    Shallow H o' form c es := by
  obtain ⟨hfills, hbindings⟩ := nesting_le_of_program hle
  obtain ⟨xss, hflat, hblocks⟩ := blocks_ofBindings H o form es hn
  refine ⟨fun x hx => ?_, fun e he => ?_⟩
  · obtain ⟨hk, hv⟩ := h.fills x hx
    rw [← hflat] at hx
    obtain ⟨xs, hxs, hx⟩ := List.mem_flatten.1 hx
    rw [hblocks] at hfills
    obtain ⟨hlek, hlev⟩ := Nat.max_le.1
      (hfills _ (List.mem_map_of_mem hxs) _ (List.mem_map_of_mem hx))
    exact ⟨isTooDeep_of_nesting_le hk hlek, isTooDeep_of_nesting_le hv hlev⟩
  · obtain ⟨hk, hv⟩ := h.bindings e he
    obtain ⟨hlek, hlev⟩ := Nat.max_le.1 (hbindings _ (List.mem_map_of_mem he))
    exact ⟨isTooDeep_of_nesting_le hk hlek, isTooDeep_of_nesting_le hv hlev⟩

/-- **A document in which nothing is too deep does not depend on the limit.** -/
theorem ofBindings_eq_of_shallow (h' : Shallow H o' form c es)
    (hbudget : o.blockBudget = o'.blockBudget) :
    Document.ofBindings H o form c es = Document.ofBindings H o' form c es := by
  have hslots := nodup_slotted form hn
  have hfills : Document.fills H.listing (termOf H (slotOf form c) o.limits.maxDepth)
      (Document.slotted form c) =
        Document.fills H.listing (termOf H (slotOf form c) o'.limits.maxDepth)
          (Document.slotted form c) := by
    unfold slotOf
    rw [fills_eq H _ hslots, fills_eq H _ hslots]
    refine List.map_congr_left fun x hx => ?_
    have hk := termOf_eq_of_shallow (h.fills x hx).1 (h'.fills x hx).1
    have hv := termOf_eq_of_shallow (h.fills x hx).2 (h'.fills x hx).2
    unfold slotOf at hk hv
    rw [fillFor, fillFor, fillOf, fillOf, hk, hv]
  have hbindings : es.map (bindingOf H (slotOf form c) o.limits.maxDepth) =
      es.map (bindingOf H (slotOf form c) o'.limits.maxDepth) := by
    refine List.map_congr_left fun e he => ?_
    rw [bindingOf, bindingOf, termOf_eq_of_shallow (h.bindings e he).1 (h'.bindings e he).1,
      termOf_eq_of_shallow (h.bindings e he).2 (h'.bindings e he).2]
  have hdocument (o : Options) : Document.ofBindings H o form c es =
      ⟨(Document.slotted form c).length, form == .split,
        if form = .split then Fill.blocks o.blockBudget (Document.fills H.listing
          (termOf H (slotOf form c) o.limits.maxDepth) (Document.slotted form c)) else
            [Document.fills H.listing (termOf H (slotOf form c) o.limits.maxDepth)
              (Document.slotted form c)],
        es.map (bindingOf H (slotOf form c) o.limits.maxDepth)⟩ := rfl
  rw [hdocument, hdocument, hfills, hbindings, hbudget]

end

/-! ## Attempts in the tree form -/

/-- The options with another limit of the depth. -/
def Options.withDepth (o : Options) (depth : Nat) : Options :=
  { o with limits.maxDepth := depth }

namespace Save

section

variable {σ : Type} {H : Heap} {o o' : Options} {bindings : TableId} {required : Option TableId}
  {form : Form} {s : σ} (h : H.WellFormed)
include h

/-- **What is too deep to be written is rejected by the checker** if it is written all the same. -/
theorem exists_error_of_isTooDeep (hdeep : (document H o bindings required form).isTooDeep = true)
    (hshallow : (document H o' bindings required form).isTooDeep = false) (layout : Layout) :
    ∃ e, check o.limits ((document H o' bindings required form).text layout) = .error e := by
  have hin (e : Entry) (he : e ∈ entriesOf H bindings required) := inHeap_of_mem_entriesOf h he
  have hn := (sound_censusOf h hin).nodup
  unfold check
  cases hparse : parse o.limits ((document H o' bindings required form).text layout) with
  | error e => exact ⟨_, rfl⟩
  | ok body =>
    have hprogram := eq_program_of_parse layout (writable_document h hshallow) hparse
    have hle := hprogram ▸ nesting_le_of_parse hparse
    have hwritten := ((shallow_iff hn).1 hshallow).of_nesting_le hn hle
    exact absurd ((shallow_iff hn).2 hwritten) (Bool.not_eq_false _ ▸ hdeep)

/-- A limit of as many levels as there are tables is never reached. -/
theorem isTooDeep_withDepth {depth : Nat} (hle : H.size ≤ depth) :
    (document H (o.withDepth depth) bindings required form).isTooDeep = false := by
  have hin (e : Entry) (he : e ∈ entriesOf H bindings required) := inHeap_of_mem_entriesOf h he
  refine (shallow_iff (sound_censusOf h hin).nodup).2 (shallow_iff_forall.2 ?_)
  exact shallow_ofValues h (inHeap_values hin) rfl hle

theorem document_eq_withDepth {depth : Nat} (hle : H.size ≤ depth)
    (hshallow : (document H o bindings required form).isTooDeep = false) :
    document H o bindings required form =
      document H (o.withDepth depth) bindings required form := by
  have hin (e : Entry) (he : e ∈ entriesOf H bindings required) := inHeap_of_mem_entriesOf h he
  have hn := (sound_censusOf h hin).nodup
  exact ofBindings_eq_of_shallow hn ((shallow_iff hn).1 hshallow)
    ((shallow_iff hn).1 (isTooDeep_withDepth h hle)) rfl

/-- **The writer gives up only on what the checker rejects.** With no more tables than the
threshold, and unless a sort panics, the bindings have one text in the tree form under all limits of
the depth that are large enough, and an attempt comes to this text if and only if the checker
accepts it. Where a sort panics, there is no text under any limit, and no attempt. -/
theorem attempt_eq_iff_check (o : Options) (bindings : TableId) (required : Option TableId) (s : σ)
    (hfew : ∀ es c, entriesOf? H bindings required = some es → censusOf? H es = some c →
      c.size ≤ o.tableThreshold) :
    let tried := ((attempt? (parsing o.limits) H o bindings required .tree).run.run s).1
    (Sorts H bindings required → ∃ text,
      (∀ depth, H.size ≤ depth →
        rendering? H (o.withDepth depth) bindings required .tree = some (.ok text)) ∧
      (tried = some ⟨.tree, .ok text⟩ ↔ check o.limits text = .ok ()) ∧
      (∀ text', tried.map Attempt.outcome = some (.ok text') → text' = text) ∧
      ∀ depth, tried.map Attempt.outcome = some (.error (.tooDeep depth)) →
        ∃ e, check o.limits text = .error e) ∧
    (¬Sorts H bindings required → tried = none ∧
      ∀ depth, rendering? H (o.withDepth depth) bindings required .tree = none) ∧
    (Calm H bindings required → Sorts H bindings required) := by
  intro tried
  refine ⟨fun hs => ?_, fun hs => ⟨congrArg Prod.fst (attempt?_of_not_sorts h s hs), fun depth =>
    rendering?_of_not_sorts h hs⟩, fun hcalm => hcalm.sorts h⟩
  have hform : effective o (censusOf H (entriesOf H bindings required)) .tree = .tree :=
    if_neg fun hmany => Nat.not_lt_of_le
      (hfew _ _ hs.entriesOf?_eq ((censusOf?_eq_some_iff h).2 ⟨rfl, hs.tables⟩)) hmany.1
  have htried : tried = some ((tryForm (parsing o.limits) H o
      (censusOf H (entriesOf H bindings required)) (entriesOf H bindings required)
      .tree).run s).1 := by
    unfold tried
    rw [attempt?_of_sorts h hs, run_lift, attempt]
    dsimp only
    rw [hform]
  have hshallow {depth : Nat} (hle : H.size ≤ depth) :
      (document H (o.withDepth depth) bindings required .tree).isTooDeep = false :=
    isTooDeep_withDepth h hle
  rw [htried]
  refine ⟨(document H (o.withDepth H.size) bindings required .tree).text (layoutOf o),
    fun depth hle => (hs.rendering?_eq h).trans (congrArg some (rendering_eq_ok_iff.2
      ⟨hshallow hle, ?_⟩)), ?_⟩
  · rw [document_eq_withDepth h (Nat.le_refl _) (hshallow hle)]
    rfl
  rw [Option.map_some]
  cases hdeep : (document H o bindings required .tree).isTooDeep with
  | true =>
    obtain ⟨e, he⟩ := exists_error_of_isTooDeep h hdeep (hshallow (Nat.le_refl _)) (layoutOf o)
    rw [run_tryForm_error (render_of_isTooDeep hdeep), he]
    simp
  | false =>
    rw [run_tryForm_ok (render_of_not_isTooDeep hdeep), run_parsing,
      ← document_eq_withDepth h (Nat.le_refl _) hdeep]
    cases check o.limits ((document H o bindings required .tree).text (layoutOf o)) with
    | error e => simp [Except.map]
    | ok u => simp [Except.map]

end

/-- The nested bindings need two levels: with two the writer comes to the text that the checker
accepts, with one it gives up on the text that the checker rejects. -/
theorem attempt_eq_iff_check_nested :
    (nested.WellFormed ∧ Sorts nested 0 none ∧ ∀ es c, entriesOf? nested 0 none = some es →
      censusOf? nested es = some c → c.size ≤ shallow.tableThreshold) ∧
      ((attempt? (parsing (shallow.withDepth 2).limits) nested (shallow.withDepth 2) 0 none
        .tree).run.run ()).1 = some ⟨.tree, .ok nestedLines⟩ ∧
      ((attempt? (parsing shallow.limits) nested shallow 0 none .tree).run.run ()).1.map
        Attempt.outcome = some (.error (.tooDeep 1)) ∧
      ∃ e, check shallow.limits nestedLines = .error e := by
  have hall : nested.WellFormed ∧ (censusOf nested (entriesOf nested 0 none)).size ≤ 10000 ∧
      rendering? nested (shallow.withDepth 3) 0 none .tree = some (.ok nestedLines) ∧
      check (shallow.withDepth 2).limits nestedLines = .ok () ∧
      ((attempt? (parsing shallow.limits) nested shallow 0 none .tree).run.run ()).1.map
        Attempt.outcome = some (.error (.tooDeep 1)) := by decide +kernel
  obtain ⟨hwf, hsize, hlines, hcheck, hdeep⟩ := hall
  obtain ⟨hs, -⟩ := (rendering?_eq_some_iff hwf).1 hlines
  have hfew (es : List Entry) (c : Census) (hes : entriesOf? nested 0 none = some es)
      (hc : censusOf? nested es = some c) : c.size ≤ 10000 := by
    rw [hs.entriesOf?_eq] at hes
    obtain rfl := Option.some.inj hes
    rw [((censusOf?_eq_some_iff hwf).1 hc).1]
    exact hsize
  obtain ⟨text, htext, haccepts, -, -⟩ :=
    (attempt_eq_iff_check hwf (shallow.withDepth 2) 0 none () hfew).1 hs
  obtain rfl : text = nestedLines :=
    Except.ok.inj (Option.some.inj ((htext 3 (Nat.le_refl _)).symm.trans hlines))
  obtain ⟨text, htext', -, -, hrejects⟩ := (attempt_eq_iff_check hwf shallow 0 none () hfew).1 hs
  obtain rfl : text = nestedLines :=
    Except.ok.inj (Option.some.inj ((htext' 3 (Nat.le_refl _)).symm.trans hlines))
  exact ⟨⟨hwf, hs, hfew⟩, haccepts.2 hcheck, hdeep, hrejects 1 hdeep⟩

/-- **Where a sort panics, there is no text at any depth**, and no attempt. -/
theorem attempt?_panics :
    Heap.unsettled.WellFormed ∧ Heap.unsettled.size ≤ ({} : Options).tableThreshold ∧
      ((attempt? (parsing ({} : Options).limits) Heap.unsettled {} 0 none .tree).run.run
        ()).1.isNone ∧
      ∀ depth, rendering? Heap.unsettled (({} : Options).withDepth depth) 0 none .tree = none := by
  have hwf := Heap.wellFormed_unsettled
  refine ⟨hwf, by decide, ?_, fun depth => rendering?_of_not_sorts hwf not_sorts_unsettled⟩
  rw [attempt?_of_not_sorts hwf () not_sorts_unsettled]
  rfl

end Save

end LuaGraph
