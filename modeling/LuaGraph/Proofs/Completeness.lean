import LuaGraph.Proofs.Blocks
import LuaGraph.Proofs.Graph.Calm
import LuaGraph.Proofs.RoundTrip

/-!
# Completeness

The last form of the ladder (`persist`) is accepted for every graph, if the ceilings leave room for
the bindings themselves: the chunk of a text in blocks holds no more than the constants of the
preamble and those of the bindings, of which there are two literals each. So saving ends in a text,
unless a sort panics on the way there.

Headlines: **`exists_text_save`** and `save?_panics`.
-/

namespace LuaGraph.Save

open Chunk

variable {H : Heap} {o : Options} {bindings : TableId} {required : Option TableId}

/-- The number of bindings, and of required keys without one. -/
def bindingCount (H : Heap) (bindings : TableId) (required : Option TableId) : Nat :=
  (H.table bindings).entries.length + (missing H bindings required).length

theorem length_entriesOf_le (H : Heap) (bindings : TableId) (required : Option TableId) :
    (entriesOf H bindings required).length ≤ bindingCount H bindings required := by
  rw [(perm_entriesOf H bindings required).length_eq, bindingCount, ← List.length_append]
  exact List.length_filter_le ..

/-- The chunk of a flat document in blocks has at most one constant more than two in the preamble
and two for each binding. -/
theorem distinct_constants_le {d : Document} (h : d.Flat) (hsplit : d.split = true) :
    distinct d.constants ≤ 2 * d.bindings.length + 3 := by
  have hpreamble : OfLiterals 2
      (if d.slots = 0 then [] else [naturalConstant 1, naturalConstant d.slots]) := by
    split
    · exact .nil
    · exact (OfLiterals.constant (naturalConstant 1)).append (.constant _)
  have hbindings : OfLiterals (d.bindings.map fun _ => 2).sum
      (d.bindings.flatMap Binding.constants) :=
    OfLiterals.flatMap _ fun b hb => (ofLiterals_binding b).mono (h.bindings b hb).literals_le
  rw [List.map_const', List.sum_replicate_nat] at hbindings
  have hconstants : d.constants =
      (if d.slots = 0 then [] else [naturalConstant 1, naturalConstant d.slots]) ++
        d.bindings.flatMap Binding.constants := by
    unfold Document.constants
    rw [hsplit, if_pos rfl, List.append_nil]
  have hsize := (hpreamble.append hbindings).size_le
  rw [← hconstants] at hsize
  show (d.constants.foldl (·.insert ·) (∅ : Constants)).size ≤ _
  omega

/-- The chunk of the split form has room for the bindings. -/
theorem distinct_constants_document_le (h : H.WellFormed) :
    distinct (document H o bindings required .split).constants ≤
      2 * bindingCount H bindings required + 3 := by
  have hflat : (document H o bindings required .split).Flat := flat_document h nofun
  have hle := distinct_constants_le hflat rfl
  have hlength : (document H o bindings required .split).bindings.length ≤
      bindingCount H bindings required := by
    show ((entriesOf H bindings required).map _).length ≤ _
    rw [List.length_map]
    exact length_entriesOf_le H bindings required
  omega

/-- **Saving ends in a text**, whatever the graph, if the ceilings leave room for the bindings, for
a block and for five levels, and if no sort panics, which none does without NaN under several table
keys. The text is the rendering of the last form that is tried, and the checker accepts it. -/
theorem exists_text_save {σ : Type} (h : H.WellFormed) (hb : 1 ≤ o.blockBudget)
    (hblock : o.blockBudget + 3 ≤ o.limits.maxConstants)
    (hchunk : 2 * bindingCount H bindings required + 4 ≤ o.limits.maxConstants)
    (hdepth : 5 ≤ o.limits.maxDepth) (s : σ) :
    (Sorts H bindings required → ∃ earlier last text,
      (save? (parsing o.limits) H o bindings required).run.run s =
        (some (.ok text), last.after) ∧
      Ladder (parsing o.limits) H o bindings required s earlier last (.ok text) ∧
      rendering? H o bindings required last.attempt.form = some (.ok text) ∧
      check o.limits text = .ok ()) ∧
    (¬Sorts H bindings required →
      (save? (parsing o.limits) H o bindings required).run.run s = (none, s)) ∧
    (Calm H bindings required → Sorts H bindings required) := by
  obtain ⟨hsorts, hpanics⟩ := save_rounds h (parsing o.limits) o bindings required s
  refine ⟨fun hs => ?_, hpanics, fun hcalm => hcalm.sorts h⟩
  obtain ⟨earlier, last, result, hsave, hladder⟩ := hsorts hs
  cases result with
  | ok text =>
    obtain ⟨hrendered, haccepted⟩ := (hladder.ok_iff text).1 rfl
    have hverdict : check o.limits text = .ok () := congrArg Prod.fst haccepted
    exact ⟨earlier, last, text, hsave, hladder, hrendered, hverdict⟩
  | error e =>
    -- an error would be a rejection of the split form, which is accepted
    obtain ⟨reason, hattempt, -⟩ := hladder.error e rfl
    have hends := hladder.ends last (List.mem_append_right _ (List.mem_singleton_self last))
    have hconstants : distinct (document H o bindings required .split).constants ≤
        2 * bindingCount H bindings required + 3 := distinct_constants_document_le h
    have haccept := check_document h hb hblock hdepth (Nat.le_trans hconstants (by omega))
    rw [hattempt] at hends
    cases hends with
    | rejected hr hc =>
      have htext : rendering? H o bindings required .split =
          some (.ok ((document H o bindings required .split).text (layoutOf o))) :=
        (hs.rendering?_eq h).trans (congrArg some (rendering_eq_ok h nofun))
      rw [htext] at hr
      rw [← Except.ok.inj (Option.some.inj hr)] at hc
      have hverdict : check o.limits ((document H o bindings required .split).text (layoutOf o)) =
        .error reason := congrArg Prod.fst hc
      rw [haccept] at hverdict
      cases hverdict

/-- Options with ceilings that leave just enough room for four bindings. -/
def narrow : Options := { blockBudget := 9, limits := { maxConstants := 12, maxDepth := 5 } }

theorem exists_text_save_knot :
    (knot.WellFormed ∧ 1 ≤ narrow.blockBudget ∧
      narrow.blockBudget + 3 ≤ narrow.limits.maxConstants ∧
      2 * bindingCount knot 0 (some 2) + 4 ≤ narrow.limits.maxConstants ∧
      5 ≤ narrow.limits.maxDepth ∧ Sorts knot 0 (some 2)) ∧
    ∃ text form,
      ((save? (parsing narrow.limits) knot narrow 0 (some 2)).run.run ()).1 = some (.ok text) ∧
      rendering? knot narrow 0 (some 2) form = some (.ok text) ∧
      check narrow.limits text = .ok () := by
  have hwf : knot.WellFormed := by decide +kernel
  have hchunk : 2 * bindingCount knot 0 (some 2) + 4 ≤ narrow.limits.maxConstants := by
    decide +kernel
  have hrendered : (rendering? knot narrow 0 (some 2) .tree).isSome := by decide +kernel
  obtain ⟨r, hr⟩ := Option.isSome_iff_exists.1 hrendered
  have hs : Sorts knot 0 (some 2) := ((rendering?_eq_some_iff hwf).1 hr).1
  obtain ⟨htext, -, -⟩ := exists_text_save hwf (by decide) (by decide) hchunk (by decide) ()
  obtain ⟨_, last, text, hsave, -, hrendered, haccepted⟩ := htext hs
  exact ⟨⟨hwf, by decide, by decide, hchunk, by decide, hs⟩, text, last.attempt.form,
    congrArg Prod.fst hsave, hrendered, haccepted⟩

/-- **Where a sort panics, nothing is saved**, however much room the ceilings leave. -/
theorem save?_panics :
    (Heap.unsettled.WellFormed ∧ 1 ≤ ({} : Options).blockBudget ∧
      ({} : Options).blockBudget + 3 ≤ ({} : Options).limits.maxConstants ∧
      2 * bindingCount Heap.unsettled 0 none + 4 ≤ ({} : Options).limits.maxConstants ∧
      5 ≤ ({} : Options).limits.maxDepth) ∧
    ((save? (parsing ({} : Options).limits) Heap.unsettled {} 0 none).run.run ()).1 = none :=
  ⟨⟨Heap.wellFormed_unsettled, by decide, by decide, by decide +kernel, by decide⟩,
    congrArg Prod.fst (save?_of_not_sorts Heap.wellFormed_unsettled () not_sorts_unsettled)⟩

end LuaGraph.Save
