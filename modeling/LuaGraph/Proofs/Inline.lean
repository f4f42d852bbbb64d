import LuaGraph.Inline
import LuaGraph.Proofs.Graph.Calm
import LuaGraph.Proofs.Sketching

/-!
# Inline texts

`to_string_inline_with_options` gives the whole text of a value on one line exactly if no sort
panics for a table in the value, the value is a tree, no table is too deep in it, and the text is
short enough: none of the three reasons to give up is ever found too early. A value is refused
otherwise, but only where no sort panics. Where one does, neither a text nor a refusal is returned.

Headline: **`inline?_eq_some_iff`**, and `inline?_panics` for a value that is shared and not
refused.
-/

namespace LuaGraph

/-! ## Trees -/

namespace Heap

/-- The tables met on a walk through the keys and values of these entries, down to a depth. A table
is followed as often as it is met. -/
def walk (H : Heap) : Nat → Value → List TableId
  | depth + 1, .table t =>
    t :: (H.writable t).flatMap fun e => H.walk depth e.1 ++ H.walk depth e.2
  | _, _ => []

/-- Every table is met once at most, however deep the walk. -/
def IsTree (H : Heap) (v : Value) : Prop := ∀ depth, (H.walk depth v).Nodup

/-- Tables are nested at most so deep. -/
def NestsWithin (H : Heap) : Nat → Value → Prop
  | 0, .table _ => False
  | depth + 1, .table t => ∀ e ∈ H.writable t, H.NestsWithin depth e.1 ∧ H.NestsWithin depth e.2
  | _, _ => True

/-- The whole text of a value on one line, with the tables down to a depth. -/
def compactText (H : Heap) (depth : Nat) (v : Value) : String :=
  (termOf H (fun _ => none) depth v).text .compact 0

section

variable {H : Heap} {v : Value} {depth n : Nat}

/-- A walk goes no less deep one level further down. -/
theorem walk_sublist_succ (H : Heap) (depth : Nat) (v : Value) :
    (H.walk depth v).Sublist (H.walk (depth + 1) v) := by
  induction depth generalizing v with
  | zero =>
    rw [walk]
    · exact List.nil_sublist _
    · exact nofun
  | succ depth ih =>
    cases v with
    | table t =>
      rw [walk, walk]
      refine .cons_cons t ?_
      induction H.writable t with
      | nil => exact .slnil
      | cons e es ihes =>
        rw [List.flatMap_cons, List.flatMap_cons]
        exact ((ih e.1).append (ih e.2)).append ihes
    | _ => exact .refl _

/-- Where tables are nested no deeper, neither does a walk go. -/
theorem walk_succ (h : H.NestsWithin depth v) : H.walk (depth + 1) v = H.walk depth v := by
  induction depth generalizing v with
  | zero =>
    cases v with
    | table t => exact h.elim
    | _ => rfl
  | succ depth ih =>
    cases v with
    | table t =>
      rw [walk, walk]
      congr 1
      refine List.flatMap_congr fun e he => ?_
      obtain ⟨hk, hv⟩ := h e he
      rw [ih hk, ih hv]
    | _ => rfl

theorem nestsWithin_succ (h : H.NestsWithin depth v) : H.NestsWithin (depth + 1) v := by
  induction depth generalizing v with
  | zero =>
    cases v with
    | table t => exact h.elim
    | _ => trivial
  | succ depth ih =>
    cases v with
    | table t => exact fun e he => ⟨ih (h e he).1, ih (h e he).2⟩
    | _ => trivial

theorem nestsWithin_of_le (h : H.NestsWithin depth v) (hle : depth ≤ n) : H.NestsWithin n v := by
  induction hle with
  | refl => exact h
  | step _ ih => exact nestsWithin_succ ih

theorem nestsWithin_below {t u : TableId} (h : H.NestsWithin (depth + 1) (.table t))
    (hu : u ∈ H.below t) : H.NestsWithin depth (.table u) := by
  obtain ⟨e, he, hk | hv⟩ := Listing.mem_tablesOf.1 hu
  · exact hk ▸ (h e he).1
  · exact hv ▸ (h e he).2

/-- What is reached from some tables is nested no deeper than these. -/
theorem nestsWithin_of_reach {roots : List TableId} {u : TableId}
    (hroots : ∀ t ∈ roots, H.NestsWithin depth (.table t)) (hu : Census.Reach H.below roots u) :
    H.NestsWithin depth (.table u) := by
  induction hu with
  | root ht => exact hroots _ ht
  | child _ ht ih =>
    cases depth with
    | zero => exact ih.elim
    | succ depth => exact nestsWithin_succ (nestsWithin_below ih ht)

/-- A table that leads back to itself is nested within no depth. -/
theorem not_nestsWithin_of_cycle {u : TableId} (hu : Census.Reach H.below (H.below u) u)
    (depth : Nat) : ¬ H.NestsWithin depth (.table u) := by
  induction depth with
  | zero => exact id
  | succ depth ih =>
    exact fun h => ih (nestsWithin_of_reach (fun _ ht => nestsWithin_below h ht) hu)

/-- **Whether a value is a tree** is decided by a walk down to where its tables end. -/
theorem isTree_iff (h : H.NestsWithin depth v) : H.IsTree v ↔ (H.walk depth v).Nodup := by
  refine ⟨fun htree => htree depth, fun hnodup n => ?_⟩
  rcases Nat.le_total n depth with hle | hle
  · refine hnodup.sublist ?_
    clear h hnodup
    induction hle with
    | refl => exact .refl _
    | step _ ih => exact ih.trans (walk_sublist_succ H _ v)
  · suffices H.walk n v = H.walk depth v by rwa [this]
    induction hle with
    | refl => rfl
    | step hle ih => rw [walk_succ (nestsWithin_of_le h hle), ih]

variable (h : H.WellFormed)
include h

/-- A walk meets the tables that are written out. -/
theorem perm_walk (depth : Nat) (v : Value) : (H.walk depth v).Perm (Sketch.metIn H depth v) := by
  induction depth generalizing v with
  | zero =>
    cases v with
    | table t => exact .nil
    | _ => exact .nil
  | succ depth ih =>
    cases v with
    | table t =>
      rw [walk, show Sketch.metIn H (depth + 1) (.table t) = _ from writtenIn_table rfl]
      refine .cons t (((perm_pairs h t).symm.flatMap_right _).trans ?_)
      refine List.Perm.flatMap_left _ fun e _ => (ih e.1).append (ih e.2)
    | _ => exact .nil

/-- Tables are nested within a depth if the writer finds none below it. -/
theorem reaches_iff : Sketch.Reaches H depth v ↔ H.NestsWithin depth v := by
  induction depth generalizing v with
  | zero =>
    cases v with
    | table t =>
      rw [Sketch.Reaches, termOf_zero rfl, Term.isTooDeep]
      exact iff_of_false (Ne.symm Bool.false_ne_true) id
    | _ => exact iff_of_true rfl trivial
  | succ depth ih =>
    cases v with
    | table t =>
      rw [Sketch.Reaches, termOf_succ rfl, Term.isTooDeep, Sketch.reaches_pairs_iff]
      refine forall_congr' fun e => ?_
      rw [show e ∈ (H.listing t).pairs ↔ e ∈ H.writable t from (perm_pairs h t).mem_iff, ih, ih]
    | _ => exact iff_of_true rfl trivial

end

/-- The text of a value does not depend on the depth, where its tables end above it. -/
theorem compactText_of_le {H : Heap} {v : Value} {depth n : Nat} (h : Sketch.Reaches H depth v)
    (hle : depth ≤ n) : H.compactText n v = H.compactText depth v := by
  rw [compactText, termOf_of_le h hle]
  rfl

end Heap

/-! ## Where sorts panic -/

namespace Correspondence

/-- The result of the one is that of the other, if there is one. -/
def ifAny : Correspondence Option Id where
  rel Q p q := ∀ a ∈ p, q = a ∧ Q a
  pure h a ha := by
    obtain rfl := Option.some.inj ha
    exact ⟨rfl, h⟩
  bind hp hf b hb := by
    obtain ⟨a, ha, hb⟩ := Option.bind_eq_some_iff.1 hb
    obtain ⟨rfl, hQ⟩ := hp a ha
    exact hf _ hQ b hb

/-- There is a result, and it is that of the other. -/
def always : Correspondence Option Id where
  rel Q p q := p = some q ∧ Q q
  pure h := ⟨rfl, h⟩
  bind hp hf := by
    obtain ⟨rfl, hQ⟩ := hp
    exact hf _ hQ

end Correspondence

namespace Sketch

variable {H : Heap} {n : Manner} {v : Value}

/-- A sketch where listings are at hand. -/
def drawn (H : Heap) (n : Manner) (v : Value) : Except Error Unit × Sketch :=
  result (value n (fun t => pure (H.listing t)) n.maxDepth v) {}

/-- **A sketch that is drawn without a panic** is drawn from tables that are listed. -/
theorem draw_eq_some {r : Except Error Unit × Sketch} (h : draw n H.listing? v = some r) :
    drawn H n v = r ∧ ∀ t ∈ r.2.met, H.Listed t :=
  Correspondence.ifAny.rel_draw (fun t (_ : True) l hl => by
    obtain ⟨hlisted, rfl⟩ := Heap.listing_eq hl
    exact ⟨rfl, hlisted, fun _ _ => trivial⟩) (fun _ _ => trivial) r h

/-- A sketch is drawn without a panic from a value in which all tables are listed. -/
theorem draw_of_listed
    (h : ∀ t, Census.Reach H.children v.table?.toList t → H.Listed t) :
    draw n H.listing? v = some (drawn H n v) := by
  have hlisting (t : TableId) (ht : Census.Reach H.children v.table?.toList t) :
      Correspondence.always.rel
        (fun l => H.Listed t ∧ ∀ u ∈ Census.children l, Census.Reach H.children v.table?.toList u)
        (H.listing? t) (pure (H.listing t)) :=
    ⟨(h t ht).eq, h t ht, fun _ hu => .child ht hu⟩
  exact (Correspondence.always.rel_draw hlisting fun _ ht => .root (Option.mem_toList.2 ht)).1

/-- **The writer that refuses gets to the end** of a value exactly if nothing in it is too deep, no
table is met twice, and the whole text is short enough; and then the text is all that it wrote. -/
theorem drawn_refusing_iff {o : Options} {k : Sketch} :
    drawn H (refusing o) v = (.ok (), k) ↔
      Reaches H o.limits.maxDepth v ∧ (metIn H o.limits.maxDepth v).Nodup ∧
        (H.compactText o.limits.maxDepth v).utf8ByteSize ≤ o.inlineLimit ∧
        k = add {} (H.compactText o.limits.maxDepth v) (metIn H o.limits.maxDepth v) := by
  have hwrites := writes_value (m := refusing o) (H := H) rfl o.limits.maxDepth 0 v
  have hchecked := checked_value (m := refusing o) (H := H) rfl o.limits.maxDepth v
  constructor
  · intro hdrawn
    obtain ⟨hreaches, hfresh, rfl⟩ := hwrites.of_run {} k hdrawn
    have hlimit : ("" ++ H.compactText o.limits.maxDepth v).utf8ByteSize ≤ o.inlineLimit :=
      hchecked {} _ hdrawn
    rw [String.empty_append] at hlimit
    exact ⟨hreaches, hfresh.nodup, hlimit, rfl⟩
  · rintro ⟨hreaches, hnodup, hlimit, rfl⟩
    refine hwrites.run {} hreaches ⟨hnodup, fun t _ => Std.TreeSet.not_mem_emptyc⟩ ?_
    show ("" ++ H.compactText o.limits.maxDepth v).utf8ByteSize ≤ o.inlineLimit
    rwa [String.empty_append]

end Sketch

/-! ## Inline texts -/

namespace Heap

variable {H : Heap} {o : Options} {v : Value} {t u : TableId} {text : String}

theorem inline_eq (H : Heap) (o : Options) (v : Value) : H.inline o v =
    (Sketch.draw (Sketch.refusing o) H.listing? v).map fun r => r.1.map fun _ => r.2.text := by
  unfold inline
  cases Sketch.draw (Sketch.refusing o) H.listing? v <;> rfl

theorem inline?_eq_some_some_iff :
    H.inline? o v = some (some text) ↔ ∃ k,
      Sketch.draw (Sketch.refusing o) H.listing? v = some (.ok (), k) ∧ k.text = text := by
  rw [inline?, inline_eq]
  rcases Sketch.draw (Sketch.refusing o) H.listing? v with _ | ⟨_ | _, k⟩ <;>
    simp [Except.map, Except.toOption]

/-- A walk comes to what its tables hold, where tables are nested no deeper. -/
theorem mem_walk_of_mem_below (hnests : H.NestsWithin depth v) (ht : t ∈ H.walk depth v)
    (hu : u ∈ H.below t) : u ∈ H.walk depth v := by
  have hfirst {depth : Nat} (hnests : H.NestsWithin depth (.table u)) :
      u ∈ H.walk depth (.table u) := by
    cases depth with
    | zero => exact hnests.elim
    | succ depth => exact List.mem_cons_self
  induction depth generalizing v with
  | zero => cases v <;> exact absurd ht List.not_mem_nil
  | succ depth ih =>
    cases v with
    | table w =>
      refine List.mem_cons_of_mem w ?_
      rcases List.mem_cons.1 ht with rfl | ht
      · obtain ⟨e, he, hu⟩ := Listing.mem_tablesOf.1 hu
        obtain ⟨hk, hv⟩ := hnests e he
        refine List.mem_flatMap.2 ⟨e, he, List.mem_append.2 ?_⟩
        rcases hu with hu | hu
        · exact .inl (hu ▸ hfirst (hu ▸ hk))
        · exact .inr (hu ▸ hfirst (hu ▸ hv))
      · obtain ⟨e, he, ht⟩ := List.mem_flatMap.1 ht
        obtain ⟨hk, hv⟩ := hnests e he
        exact List.mem_flatMap.2 ⟨e, he, List.mem_append.2
          ((List.mem_append.1 ht).imp (ih hk) (ih hv))⟩
    | _ => exact absurd ht List.not_mem_nil

/-- A walk comes to all tables that can be reached, where tables are nested no deeper. -/
theorem mem_walk_of_reach (hnests : H.NestsWithin depth v)
    (hu : Census.Reach H.below v.table?.toList u) : u ∈ H.walk depth v := by
  induction hu with
  | @root u hu =>
    obtain rfl := Value.eq_table_of_table? (Option.mem_toList.1 hu)
    cases depth with
    | zero => exact hnests.elim
    | succ depth => exact List.mem_cons_self
  | child _ hu ih => exact mem_walk_of_mem_below hnests ih hu

/-- **No sort panics** for the tables in a value. -/
def Sorts (H : Heap) (v : Value) : Prop :=
  ∀ t, Census.Reach H.below v.table?.toList t → H.Listed t

theorem sorts_of_calm (h : H.WellFormed)
    (hcalm : ∀ t, Census.Reach H.below v.table?.toList t → H.Calm t) : H.Sorts v :=
  fun _ => listed_of_calm h hcalm

/-- Where no sort panics, the sketch is drawn. -/
theorem Sorts.draw_eq (h : H.WellFormed) (hs : H.Sorts v) (n : Sketch.Manner) :
    Sketch.draw n H.listing? v = some (Sketch.drawn H n v) :=
  Sketch.draw_of_listed fun t ht => hs t ((Census.reach_children_iff h).1 ht)

/-- **A value has an inline text exactly if no sort panics for its tables, it is a tree, these are
nested within the greatest depth, and the whole text is short enough**; and then that is its inline
text. In particular none of its tables leads back to itself. Where no sort panics, the value is
refused otherwise; and no sort panics for tables without NaN under several table keys. -/
theorem inline?_eq_some_iff (h : H.WellFormed) (o : Options) (v : Value) :
    (∀ text, H.inline? o v = some (some text) ↔ H.Sorts v ∧
      H.IsTree v ∧ H.NestsWithin o.limits.maxDepth v ∧ text.utf8ByteSize ≤ o.inlineLimit ∧
        ∀ depth ≥ o.limits.maxDepth, text = H.compactText depth v) ∧
    (H.Sorts v → (H.inline? o v).isSome) ∧
    ((∀ t, Census.Reach H.below v.table?.toList t → H.Calm t) → H.Sorts v) ∧
    ∀ u, Census.Reach H.below v.table?.toList u → Census.Reach H.below (H.below u) u →
      ∀ text, H.inline? o v ≠ some (some text) := by
  have hiff (text : String) : H.inline? o v = some (some text) ↔ H.Sorts v ∧
      H.IsTree v ∧ H.NestsWithin o.limits.maxDepth v ∧ text.utf8ByteSize ≤ o.inlineLimit ∧
        ∀ depth ≥ o.limits.maxDepth, text = H.compactText depth v := by
    rw [inline?_eq_some_some_iff]
    constructor
    · rintro ⟨k, hdraw, rfl⟩
      obtain ⟨hdrawn, hlisted⟩ := Sketch.draw_eq_some hdraw
      obtain ⟨hreaches, hnodup, hlimit, rfl⟩ := Sketch.drawn_refusing_iff.1 hdrawn
      have hnests := (reaches_iff h).1 hreaches
      have htext : (Sketch.add {} (H.compactText o.limits.maxDepth v)
          (Sketch.metIn H o.limits.maxDepth v)).text = H.compactText o.limits.maxDepth v :=
        String.empty_append
      rw [htext]
      refine ⟨fun t ht => hlisted t ?_,
        (isTree_iff hnests).2 ((perm_walk h _ v).nodup_iff.2 hnodup), hnests, hlimit,
        fun depth hle => (compactText_of_le hreaches hle).symm⟩
      exact Sketch.mem_met_add.2 (.inl ((perm_walk h _ v).mem_iff.1 (mem_walk_of_reach hnests ht)))
    · rintro ⟨hs, htree, hnests, hlimit, htext⟩
      obtain rfl := htext _ (Nat.le_refl _)
      refine ⟨_, (hs.draw_eq h _).trans (congrArg some (Sketch.drawn_refusing_iff.2
        ⟨(reaches_iff h).2 hnests, (perm_walk h _ v).nodup_iff.1 (htree _), hlimit, rfl⟩)), ?_⟩
      exact String.empty_append
  refine ⟨hiff, fun hs => ?_, sorts_of_calm h, fun u hu hcycle text hsome => ?_⟩
  · rw [inline?, inline_eq, hs.draw_eq h]
    rfl
  · obtain ⟨-, -, hnests, -⟩ := (hiff text).1 hsome
    refine not_nestsWithin_of_cycle hcycle o.limits.maxDepth (nestsWithin_of_reach ?_ hu)
    intro t ht
    rwa [← Value.eq_table_of_table? (Option.mem_toList.1 ht)]

/-- Nothing is found in a tree that makes it none. -/
theorem inline_ne_notATree (h : H.WellFormed) (htree : H.IsTree v) (o : Options) :
    H.inline o v ≠ some (.error .notATree) := by
  have hwrites := Sketch.writes_value (m := Sketch.refusing o) (H := H) rfl o.limits.maxDepth 0 v
  have hmet := (perm_walk h o.limits.maxDepth v).nodup_iff.1 (htree _)
  rw [inline_eq]
  intro he
  obtain ⟨⟨d, k⟩, hdraw, hd⟩ := Option.map_eq_some_iff.1 he
  obtain ⟨hdrawn, -⟩ := Sketch.draw_eq_some hdraw
  cases d with
  | ok u => cases hd
  | error e =>
    obtain rfl := Except.error.inj hd
    exact hwrites.not_fresh {} k hdrawn ⟨hmet, fun t _ => Std.TreeSet.not_mem_emptyc⟩

/-- A table with a table as a key and in its sequence. -/
def branching : Heap where
  tables := #[⟨[(.index 1, .table 1), (.table 2, .boolean true)], 1⟩,
    ⟨[(.string "a", .number (.integer 2))], 0⟩, {}]

theorem inline?_branching :
    branching.WellFormed ∧
      branching.inline? .compact (.table 0) =
        some (some "\x7b\x7ba = 2\x7d, [\x7b\x7d] = true\x7d") ∧
      branching.Sorts (.table 0) ∧ branching.IsTree (.table 0) := by
  have hwf : branching.WellFormed := by decide +kernel
  have hinline : branching.inline? .compact (.table 0) =
      some (some "\x7b\x7ba = 2\x7d, [\x7b\x7d] = true\x7d") := by decide +kernel
  obtain ⟨hs, htree, -⟩ := ((inline?_eq_some_iff hwf .compact (.table 0)).1 _).1 hinline
  exact ⟨hwf, hinline, hs, htree⟩

/-- **A value that is no tree is not refused where a sort panics**: nothing is returned. -/
theorem inline?_panics :
    unsettled.WellFormed ∧ ¬unsettled.IsTree (.table 2) ∧
      unsettled.inline? .compact (.table 2) = none := by
  refine ⟨wellFormed_unsettled, fun htree => ?_, by decide +kernel⟩
  exact absurd (htree 2) (by decide +kernel)

end Heap

end LuaGraph
