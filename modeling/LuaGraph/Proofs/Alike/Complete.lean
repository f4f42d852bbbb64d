import LuaGraph.Proofs.Alike.Runs

/-!
# Comparisons are complete

A run of `deep_eq` gives the answer that two values are alike whenever some simulation relates them:
it can only assume too much, never too little. A key that is a scalar has at most one candidate, and
a key that is a table is tried with every table among the keys of the other side, until one is
found.

Raw equality compares handles by identity, while an entry is found under the whole handle. In a heap
whose handles have one label each (`Labelled`) that is the same.

Results: `Runs.eq_true`, **`Keyed.alike_of_related`**.
-/

namespace LuaGraph.Heap

/-- The identity of a handle among the keys determines its label. -/
def SameLabels (es es' : List Entry) : Prop :=
  ∀ e ∈ es, ∀ e' ∈ es', e.1.isHandle = true → e.1.same e'.1 = true → e.1 = e'.1

instance (es es' : List Entry) : Decidable (SameLabels es es') :=
  inferInstanceAs (Decidable (∀ e ∈ es, ∀ e' ∈ es', _ → _))

/-- Every handle among the keys of the heap has one label. -/
def Labelled (H : Heap) : Prop := ∀ x y, SameLabels (H.entries x) (H.entries y)

/-- A region in which every entry can be found under its key. -/
structure Keyed (S : TableId → Prop) (H : Heap) : Prop extends Region S H where
  isKey : ∀ t, S t → ∀ e ∈ H.entries t, e.1.IsKey
  nodup : ∀ t, S t → ((H.entries t).map Prod.fst).Nodup
  labelled : ∀ x y, S x → S y → SameLabels (H.entries x) (H.entries y)

section

variable {S : TableId → Prop} {H : Heap} {R : TableId → TableId → Prop} {a b : Value}
  {x y : TableId} {e e' : Entry}

theorem lt_size_of_mem (he : e ∈ H.entries x) : x < H.size := by
  refine Nat.lt_of_not_le fun hle => ?_
  rw [entries, table_of_size_le hle] at he
  exact List.not_mem_nil he

/-- What a table leads to is in the heap. -/
theorem WellFormed.lt_of_leads (h : H.WellFormed) (hu : Leads H.entries x y) : y < H.size := by
  have hchild {t u : TableId} (hu : u ∈ Listing.tablesOf (H.entries t)) : u < H.size := by
    obtain ⟨e, he, hv⟩ := Listing.mem_tablesOf.1 hu
    obtain ⟨hk, hw⟩ := h.closed t e he
    exact hv.elim (hk u) (hw u)
  cases hu with
  | root hu => exact hchild hu
  | child _ hu => exact hchild hu

/-- Whether handles have one label each can be computed from the tables that the heap has. -/
theorem labelled_iff : H.Labelled ↔
    ∀ x < H.size, ∀ y < H.size, SameLabels (H.entries x) (H.entries y) := by
  constructor
  · intro h x _ y _
    exact h x y
  · intro h x y e he e' he'
    exact h x (lt_size_of_mem he) y (lt_size_of_mem he') e he e' he'

instance (H : Heap) : Decidable H.Labelled := decidable_of_iff _ labelled_iff.symm

theorem WellFormed.keyed (h : H.WellFormed) (hl : H.Labelled) : Keyed (· < H.size) H where
  toRegion := h.region
  isKey t _ _ he := (h.tables t).1.isKey_of_mem he
  nodup t _ := (h.tables t).1.nodup
  labelled x y _ _ := hl x y

/-- Raw-equal keys are equal. -/
theorem Keyed.eq_of_same (hS : Keyed S H) (hx : S x) (hy : S y) (he : e ∈ H.entries x)
    (he' : e' ∈ H.entries y) (heq : e.1.same e'.1 = true) : e.1 = e'.1 := by
  cases hh : e.1.isHandle with
  | true => exact hS.labelled x y hx hy e he e' he' hh heq
  | false => exact (hS.isKey x hx e he).eq_of_same (hS.isKey y hy e' he') hh heq

/-- An entry is found under its key. -/
theorem Keyed.get?_eq (hS : Keyed S H) (hy : S y) (he : e ∈ H.entries y) :
    (H.table y).get? e.1 = some e.2 := by
  rw [Table.get?, (hS.isKey y hy e he).canonical]
  exact Table.lookup_of_mem (hS.nodup y hy) he

theorem alikeScalars_of_related (hnot : a.isTable = false ∨ b.isTable = false)
    (h : Related R a b) : alikeScalars a b = true := by
  cases h with
  | same t => rcases hnot with hnot | hnot <;> cases hnot
  | tables => rcases hnot with hnot | hnot <;> cases hnot
  | nans hm hn => simp [alikeScalars, hm, hn]
  | raw _ heq =>
    unfold alikeScalars
    split
    · exact Bool.or_eq_true_iff.2 (.inr heq)
    · exact heq

/-- What a simulation has to say for a task to succeed. -/
def Task.Holds (S : TableId → Prop) (H : Heap) (R : TableId → TableId → Prop) : Task → Prop
  | .values a b => Related R a b
  | .entries es y => ∃ x, S x ∧ ∀ e ∈ es, e ∈ H.entries x ∧ ∃ e' ∈ H.entries y, Counterpart R e e'
  | .entry e y => ∃ x, S x ∧ e ∈ H.entries x ∧ ∃ e' ∈ H.entries y, Counterpart R e e'
  | .among e es => e.1.isTable = true ∧ ∃ e' ∈ es, Counterpart R e e'

/-- **A run succeeds where a simulation says so.** -/
theorem Runs.eq_true (hS : Keyed S H) (hR : H.Simulation R) {task : Task} {s s' : Assumed}
    {r : Bool} (hrun : Runs H task s r s') (htask : task.In S) (h : task.Holds S H R) :
    r = true := by
  induction hrun with
  | scalars hnot => exact alikeScalars_of_related hnot h
  | assumed | done | matched => rfl
  | @sizes x y _ hne _ hsize =>
    cases h with
    | same => exact absurd rfl hne
    | tables hxy => exact absurd (hR x y hxy).size hsize
    | raw ht => cases ht
  | @tables x y _ _ _ hne _ _ _ ih =>
    have hx := htask.1 x rfl
    refine ih ⟨hS.closed x hx, htask.2 y rfl⟩ ?_
    cases h with
    | same => exact absurd rfl hne
    | tables hxy => exact ⟨x, hx, fun e he => ⟨he, (hR x y hxy).entries e he⟩⟩
    | raw ht => cases ht
  | failed _ ih =>
    obtain ⟨x, hx, hall⟩ := h
    obtain ⟨he, hc⟩ := hall _ (List.mem_cons_self ..)
    exact ih ⟨htask.1 _ (List.mem_cons_self ..), htask.2⟩ ⟨x, hx, he, hc⟩
  | next _ _ _ ih =>
    obtain ⟨x, hx, hall⟩ := h
    exact ih ⟨fun e he => htask.1 e (List.mem_cons_of_mem _ he), htask.2⟩
      ⟨x, hx, fun e he => hall e (List.mem_cons_of_mem _ he)⟩
  | keyed hkey _ ih =>
    obtain ⟨x, hx, he, hc⟩ := h
    exact ih ⟨htask.1, hS.closed _ htask.2⟩ ⟨hkey, hc⟩
  | present hkey hget _ ih =>
    -- the counterpart is the entry that is found
    obtain ⟨x, hx, he, e', he', hc⟩ := h
    have heq := hS.eq_of_same hx htask.2 he he' (hc.scalarKey hkey)
    rw [heq, hS.get?_eq htask.2 he'] at hget
    cases hget
    exact ih ⟨htask.1.2, (hS.closed _ htask.2 e' he').2⟩ hc.value
  | absent hkey hget =>
    obtain ⟨x, hx, he, e', he', hc⟩ := h
    have heq := hS.eq_of_same hx htask.2 he he' (hc.scalarKey hkey)
    rw [heq, hS.get?_eq htask.2 he'] at hget
    cases hget
  | exhausted =>
    obtain ⟨-, e', he', -⟩ := h
    exact absurd he' List.not_mem_nil
  | skipped hkey _ ih =>
    obtain ⟨htable, e', he', hc⟩ := h
    refine ih ⟨htask.1, fun e he => htask.2 e (List.mem_cons_of_mem _ he)⟩ ⟨htable, e', ?_, hc⟩
    rcases List.mem_cons.1 he' with rfl | he'
    · -- what corresponds to a table is a table
      have hrelated := hc.tableKey htable
      exact absurd hrelated.isTable_eq (by simp [htable, hkey])
    · exact he'
  | keysDiffer _ _ _ ih₁ ih₂ =>
    obtain ⟨htable, e', he', hc⟩ := h
    refine ih₂ ⟨htask.1, fun e he => htask.2 e (List.mem_cons_of_mem _ he)⟩ ⟨htable, e', ?_, hc⟩
    rcases List.mem_cons.1 he' with rfl | he'
    · have hfirst := (htask.2 _ (List.mem_cons_self ..)).1
      exact absurd (ih₁ ⟨htask.1.1, hfirst⟩ (hc.tableKey htable)) Bool.false_ne_true
    · exact he'
  | valuesDiffer _ _ _ _ _ ih₂ ih₃ =>
    obtain ⟨htable, e', he', hc⟩ := h
    refine ih₃ ⟨htask.1, fun e he => htask.2 e (List.mem_cons_of_mem _ he)⟩ ⟨htable, e', ?_, hc⟩
    rcases List.mem_cons.1 he' with rfl | he'
    · have hfirst := (htask.2 _ (List.mem_cons_self ..)).2
      exact absurd (ih₂ ⟨htask.1.2, hfirst⟩ hc.value) Bool.false_ne_true
    · exact he'

/-- **Values that some simulation relates are found alike.** -/
theorem Keyed.alike_of_related (hS : Keyed S H) (hR : H.Simulation R)
    (ha : ∀ t, a = .table t → S t) (hb : ∀ t, b = .table t → S t) (hab : Related R a b) :
    H.alike a b = true := by
  obtain ⟨s, hrun⟩ := exists_runs hS.toRegion (a := a) (b := b) ⟨ha, hb⟩
  exact hrun.eq_true hS hR ⟨ha, hb⟩ hab

end

end LuaGraph.Heap
