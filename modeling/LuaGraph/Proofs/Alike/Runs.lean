import LuaGraph.Proofs.Alike
import Mathlib.Data.List.ProdSigma

/-!
# Comparisons come to an end

How a comparison (`deep_eq_values`) goes on is described without its depth: `Runs H task s r s'`
says that the task, begun under the assumptions `s`, ends with the answer `r` under the assumptions
`s'`. Such a run is finite, and there is no other of the same task (`Runs.functional`).

No task withdraws an assumption that it found (`Runs.grows`), and every comparison of two tables
that goes deeper assumes a new pair of different tables. There are fewer such pairs than the depth
that the walk is given, so the walk never meets two tables at its end.

Headlines:
* **`Runs.grows`**: failed comparisons withdraw only what they have assumed themselves.
* **`runs_alikeFrom`**: a walk that is deep enough is a run, whatever cycles the tables form.
* `exists_runs`: every comparison of values of a heap has a run.
-/

namespace LuaGraph.Heap

/-! ## Runs -/

/-- What a comparison is busy with. -/
inductive Task
  | values (a b : Value)
  /-- Every one of the entries needs a counterpart in the table. -/
  | entries (es : List Entry) (y : TableId)
  /-- The entry needs a counterpart in the table. -/
  | entry (e : Entry) (y : TableId)
  /-- The entry, whose key is a table, needs a counterpart among the others. -/
  | among (e : Entry) (es : List Entry)

/-- **The task ends with an answer**, and turns some assumptions into others. -/
inductive Runs (H : Heap) : Task → Assumed → Bool → Assumed → Prop
  | scalars {a b : Value} {s : Assumed} : a.isTable = false ∨ b.isTable = false →
      Runs H (.values a b) s (alikeScalars a b) s
  | assumed {x y : TableId} {s : Assumed} : x = y ∨ (x, y) ∈ s →
      Runs H (.values (.table x) (.table y)) s true s
  | sizes {x y : TableId} {s : Assumed} : x ≠ y → (x, y) ∉ s →
      (H.table x).size ≠ (H.table y).size →
      Runs H (.values (.table x) (.table y)) s false (((x, y) :: s).erase (x, y))
  | tables {x y : TableId} {s s' : Assumed} {r : Bool} : x ≠ y → (x, y) ∉ s →
      (H.table x).size = (H.table y).size → Runs H (.entries (H.entries x) y) ((x, y) :: s) r s' →
      Runs H (.values (.table x) (.table y)) s r (if r then s' else s'.erase (x, y))
  | done {y : TableId} {s : Assumed} : Runs H (.entries [] y) s true s
  | failed {e : Entry} {es : List Entry} {y : TableId} {s s' : Assumed} :
      Runs H (.entry e y) s false s' → Runs H (.entries (e :: es) y) s false s'
  | next {e : Entry} {es : List Entry} {y : TableId} {s s' s'' : Assumed} {r : Bool} :
      Runs H (.entry e y) s true s' → Runs H (.entries es y) s' r s'' →
      Runs H (.entries (e :: es) y) s r s''
  | keyed {e : Entry} {y : TableId} {s s' : Assumed} {r : Bool} : e.1.isTable = true →
      Runs H (.among e (H.entries y)) s r s' → Runs H (.entry e y) s r s'
  | present {e : Entry} {y : TableId} {v : Value} {s s' : Assumed} {r : Bool} :
      e.1.isTable = false → (H.table y).get? e.1 = some v → Runs H (.values e.2 v) s r s' →
      Runs H (.entry e y) s r s'
  | absent {e : Entry} {y : TableId} {s : Assumed} : e.1.isTable = false →
      (H.table y).get? e.1 = none → Runs H (.entry e y) s false s
  | exhausted {e : Entry} {s : Assumed} : Runs H (.among e []) s false s
  | skipped {e e' : Entry} {es : List Entry} {s s' : Assumed} {r : Bool} : e'.1.isTable = false →
      Runs H (.among e es) s r s' → Runs H (.among e (e' :: es)) s r s'
  | keysDiffer {e e' : Entry} {es : List Entry} {s s' s'' : Assumed} {r : Bool} :
      e'.1.isTable = true → Runs H (.values e.1 e'.1) s false s' → Runs H (.among e es) s' r s'' →
      Runs H (.among e (e' :: es)) s r s''
  | valuesDiffer {e e' : Entry} {es : List Entry} {s s₁ s₂ s' : Assumed} {r : Bool} :
      e'.1.isTable = true → Runs H (.values e.1 e'.1) s true s₁ →
      Runs H (.values e.2 e'.2) s₁ false s₂ → Runs H (.among e es) s₂ r s' →
      Runs H (.among e (e' :: es)) s r s'
  | matched {e e' : Entry} {es : List Entry} {s s₁ s' : Assumed} : e'.1.isTable = true →
      Runs H (.values e.1 e'.1) s true s₁ → Runs H (.values e.2 e'.2) s₁ true s' →
      Runs H (.among e (e' :: es)) s true s'

section

variable {H : Heap} {task : Task} {s s' s'' : Assumed} {r r' : Bool}

/-- **A task has one run.** -/
theorem Runs.functional (h : Runs H task s r s') (h' : Runs H task s r' s'') :
    r = r' ∧ s' = s'' := by
  induction h generalizing r' s'' with
  | scalars hnot =>
    cases h' with
    | scalars => exact ⟨rfl, rfl⟩
    | assumed | sizes | tables => cases hnot <;> contradiction
  | assumed heq =>
    cases h' with
    | scalars hnot => cases hnot <;> contradiction
    | assumed => exact ⟨rfl, rfl⟩
    | sizes hne hnew => exact absurd heq (not_or.2 ⟨hne, hnew⟩)
    | tables hne hnew => exact absurd heq (not_or.2 ⟨hne, hnew⟩)
  | sizes hne hnew hsize =>
    cases h' with
    | scalars hnot => cases hnot <;> contradiction
    | assumed heq => exact absurd heq (not_or.2 ⟨hne, hnew⟩)
    | sizes => exact ⟨rfl, rfl⟩
    | tables _ _ hsize' => exact absurd hsize' hsize
  | tables hne hnew hsize _ ih =>
    cases h' with
    | scalars hnot => cases hnot <;> contradiction
    | assumed heq => exact absurd heq (not_or.2 ⟨hne, hnew⟩)
    | sizes _ _ hsize' => exact absurd hsize hsize'
    | tables _ _ _ h =>
      obtain ⟨rfl, rfl⟩ := ih h
      exact ⟨rfl, rfl⟩
  | done =>
    cases h'
    exact ⟨rfl, rfl⟩
  | failed _ ih =>
    cases h' with
    | failed h => exact ih h
    | next h _ => cases (ih h).1
  | next _ _ ih₁ ih₂ =>
    cases h' with
    | failed h => cases (ih₁ h).1
    | next h₁ h₂ =>
      obtain ⟨-, rfl⟩ := ih₁ h₁
      exact ih₂ h₂
  | keyed hkey _ ih =>
    cases h' with
    | keyed _ h => exact ih h
    | present hkey' => cases hkey.symm.trans hkey'
    | absent hkey' => cases hkey.symm.trans hkey'
  | present hkey hget _ ih =>
    cases h' with
    | keyed hkey' => cases hkey.symm.trans hkey'
    | present _ hget' h =>
      cases hget.symm.trans hget'
      exact ih h
    | absent _ hget' => cases hget.symm.trans hget'
  | absent hkey hget =>
    cases h' with
    | keyed hkey' => cases hkey.symm.trans hkey'
    | present _ hget' => cases hget.symm.trans hget'
    | absent => exact ⟨rfl, rfl⟩
  | exhausted =>
    cases h'
    exact ⟨rfl, rfl⟩
  | skipped hkey _ ih =>
    cases h' with
    | skipped _ h => exact ih h
    | keysDiffer hkey' | valuesDiffer hkey' | matched hkey' => cases hkey.symm.trans hkey'
  | keysDiffer hkey _ _ ih₁ ih₂ =>
    cases h' with
    | skipped hkey' => cases hkey.symm.trans hkey'
    | keysDiffer _ h₁ h₂ =>
      obtain ⟨-, rfl⟩ := ih₁ h₁
      exact ih₂ h₂
    | valuesDiffer _ h₁ => cases (ih₁ h₁).1
    | matched _ h₁ => cases (ih₁ h₁).1
  | valuesDiffer hkey _ _ _ ih₁ ih₂ ih₃ =>
    cases h' with
    | skipped hkey' => cases hkey.symm.trans hkey'
    | keysDiffer _ h₁ => cases (ih₁ h₁).1
    | valuesDiffer _ h₁ h₂ h₃ =>
      obtain ⟨-, rfl⟩ := ih₁ h₁
      obtain ⟨-, rfl⟩ := ih₂ h₂
      exact ih₃ h₃
    | matched _ h₁ h₂ =>
      obtain ⟨-, rfl⟩ := ih₁ h₁
      cases (ih₂ h₂).1
  | matched hkey _ _ ih₁ ih₂ =>
    cases h' with
    | skipped hkey' => cases hkey.symm.trans hkey'
    | keysDiffer _ h₁ => cases (ih₁ h₁).1
    | valuesDiffer _ h₁ h₂ =>
      obtain ⟨-, rfl⟩ := ih₁ h₁
      cases (ih₂ h₂).1
    | matched _ h₁ h₂ =>
      obtain ⟨-, rfl⟩ := ih₁ h₁
      exact ih₂ h₂

/-! ## Assumptions of a run -/

section

variable (S : TableId → Prop)

/-- The key and the value of an entry are in the region, if they are tables. -/
def EntryIn (e : Entry) : Prop := (∀ t, e.1 = .table t → S t) ∧ ∀ t, e.2 = .table t → S t

/-- A region of a heap: tables that nothing leads out of. -/
structure Region (H : Heap) : Prop where
  lt : ∀ t, S t → t < H.size
  closed : ∀ t, S t → ∀ e ∈ H.entries t, EntryIn S e

/-- What a task is about is in the region. -/
def Task.In : Task → Prop
  | .values a b => (∀ t, a = .table t → S t) ∧ ∀ t, b = .table t → S t
  | .entries es y => (∀ e ∈ es, EntryIn S e) ∧ S y
  | .entry e y => EntryIn S e ∧ S y
  | .among e es => EntryIn S e ∧ ∀ e' ∈ es, EntryIn S e'

variable {S}

/-- The tables of a well-formed heap are a region. -/
theorem WellFormed.region {H : Heap} (h : H.WellFormed) : Region (· < H.size) H where
  lt _ ht := ht
  closed t _ := h.closed t

end

/-- What holds of the assumptions at any time: they are pairs of different tables of the heap, each
there once. -/
structure Assumed.Fits (H : Heap) (s : Assumed) : Prop where
  nodup : s.Nodup
  lt : ∀ p ∈ s, p.1 < H.size ∧ p.2 < H.size
  ne : ∀ p ∈ s, p.1 ≠ p.2

theorem Assumed.Fits.cons {x y : TableId} (hs : s.Fits H) (hx : x < H.size) (hy : y < H.size)
    (hne : x ≠ y) (hnew : (x, y) ∉ s) : Assumed.Fits H ((x, y) :: s) where
  nodup := List.nodup_cons.2 ⟨hnew, hs.nodup⟩
  lt := List.forall_mem_cons.2 ⟨⟨hx, hy⟩, hs.lt⟩
  ne := List.forall_mem_cons.2 ⟨hne, hs.ne⟩

theorem Assumed.Fits.erase (hs : s.Fits H) (p : TableId × TableId) :
    Assumed.Fits H (s.erase p) where
  nodup := hs.nodup.erase p
  lt q hq := hs.lt q (List.mem_of_mem_erase hq)
  ne q hq := hs.ne q (List.mem_of_mem_erase hq)

/-- Withdrawing the pair that was assumed first leaves the assumptions before it. -/
theorem subset_erase {p : TableId × TableId} (hnew : p ∉ s) (hsub : p :: s ⊆ s') :
    s ⊆ s'.erase p := fun q hq => by
  have hne : q ≠ p := fun heq => hnew (heq ▸ hq)
  exact (List.mem_erase_of_ne hne).2 (hsub (List.mem_cons_of_mem p hq))

/-- **No run withdraws an assumption that it found**, and it only assumes pairs of different
tables. -/
theorem Runs.grows {S : TableId → Prop} (hS : Region S H) (hrun : Runs H task s r s')
    (htask : task.In S) (hs : s.Fits H) : s ⊆ s' ∧ s'.Fits H := by
  induction hrun with
  | scalars | assumed | done | absent | exhausted => exact ⟨List.Subset.refl _, hs⟩
  | @sizes x y s hne hnew =>
    have hfits := hs.cons (hS.lt x (htask.1 x rfl)) (hS.lt y (htask.2 y rfl)) hne hnew
    exact ⟨subset_erase hnew (List.Subset.refl _), hfits.erase _⟩
  | @tables x y s s' r hne hnew _ _ ih =>
    have hx := htask.1 x rfl
    have hy := htask.2 y rfl
    obtain ⟨hsub, hs'⟩ := ih ⟨hS.closed x hx, hy⟩ (hs.cons (hS.lt x hx) (hS.lt y hy) hne hnew)
    cases r with
    | true => exact ⟨fun p hp => hsub (List.mem_cons_of_mem _ hp), hs'⟩
    | false => exact ⟨subset_erase hnew hsub, hs'.erase _⟩
  | failed _ ih => exact ih ⟨htask.1 _ (List.mem_cons_self ..), htask.2⟩ hs
  | next _ _ ih₁ ih₂ =>
    obtain ⟨hsub₁, hs₁⟩ := ih₁ ⟨htask.1 _ (List.mem_cons_self ..), htask.2⟩ hs
    obtain ⟨hsub₂, hs₂⟩ := ih₂ ⟨fun e he => htask.1 e (List.mem_cons_of_mem _ he), htask.2⟩ hs₁
    exact ⟨List.Subset.trans hsub₁ hsub₂, hs₂⟩
  | @keyed e y _ _ _ _ _ ih => exact ih ⟨htask.1, hS.closed y htask.2⟩ hs
  | @present e y v _ _ _ _ hget _ ih =>
    exact ih ⟨htask.1.2, (hS.closed y htask.2 _ (Table.mem_of_get? hget)).2⟩ hs
  | skipped _ _ ih => exact ih ⟨htask.1, fun e he => htask.2 e (List.mem_cons_of_mem _ he)⟩ hs
  | keysDiffer _ _ _ ih₁ ih₂ =>
    have he' := htask.2 _ (List.mem_cons_self ..)
    obtain ⟨hsub₁, hs₁⟩ := ih₁ ⟨htask.1.1, he'.1⟩ hs
    obtain ⟨hsub₂, hs₂⟩ := ih₂ ⟨htask.1, fun e he => htask.2 e (List.mem_cons_of_mem _ he)⟩ hs₁
    exact ⟨List.Subset.trans hsub₁ hsub₂, hs₂⟩
  | valuesDiffer _ _ _ _ ih₁ ih₂ ih₃ =>
    have he' := htask.2 _ (List.mem_cons_self ..)
    obtain ⟨hsub₁, hs₁⟩ := ih₁ ⟨htask.1.1, he'.1⟩ hs
    obtain ⟨hsub₂, hs₂⟩ := ih₂ ⟨htask.1.2, he'.2⟩ hs₁
    obtain ⟨hsub₃, hs₃⟩ := ih₃ ⟨htask.1, fun e he => htask.2 e (List.mem_cons_of_mem _ he)⟩ hs₂
    exact ⟨List.Subset.trans hsub₁ (List.Subset.trans hsub₂ hsub₃), hs₃⟩
  | matched _ _ _ ih₁ ih₂ =>
    have he' := htask.2 _ (List.mem_cons_self ..)
    obtain ⟨hsub₁, hs₁⟩ := ih₁ ⟨htask.1.1, he'.1⟩ hs
    obtain ⟨hsub₂, hs₂⟩ := ih₂ ⟨htask.1.2, he'.2⟩ hs₁
    exact ⟨List.Subset.trans hsub₁ hsub₂, hs₂⟩

end

/-! ## The walk is a run -/

section

variable {H : Heap} {s : Assumed} {room : Nat}

/-- Where there is a table, not all pairs of tables are assumed. -/
theorem Assumed.Fits.length_lt (hs : s.Fits H) {x : TableId} (hx : x < H.size) :
    s.length < H.size * H.size := by
  have hnew : (x, x) ∉ s := fun hmem => hs.ne _ hmem rfl
  have hsub : (x, x) :: s ⊆ List.range H.size ×ˢ List.range H.size := fun p hp => by
    have hlt : p.1 < H.size ∧ p.2 < H.size := by
      rcases List.mem_cons.1 hp with rfl | hp
      · exact ⟨hx, hx⟩
      · exact hs.lt p hp
    exact List.mem_product.2 ⟨List.mem_range.2 hlt.1, List.mem_range.2 hlt.2⟩
  have hle := (List.subperm_of_subset (List.nodup_cons.2 ⟨hnew, hs.nodup⟩) hsub).length_le
  rwa [List.length_cons, List.length_product, List.length_range] at hle

/-- At most so many pairs can still be assumed. -/
structure Leaves (H : Heap) (room : Nat) (s : Assumed) : Prop extends s.Fits H where
  room : H.size * H.size ≤ s.length + room

theorem Runs.leaves {S : TableId → Prop} (hS : Region S H) {task : Task} {r : Bool} {s' : Assumed}
    (hrun : Runs H task s r s') (htask : task.In S) (hs : Leaves H room s) :
    Leaves H room s' := by
  obtain ⟨hsub, hs'⟩ := hrun.grows hS htask hs.toFits
  have hle := (List.subperm_of_subset hs.nodup hsub).length_le
  exact ⟨hs', Nat.le_trans hs.room (by omega)⟩

variable {S : TableId → Prop} (hS : Region S H) {compare : Comparison}
  (hcompare : ∀ a b s, Task.In S (.values a b) → Leaves H room s →
    Runs H (.values a b) s (compare a b s).1 (compare a b s).2)
include hS hcompare

/-- Looking for a counterpart among some entries is a run, if comparing values is. -/
theorem runs_among {e : Entry} {es : List Entry} (htask : Task.In S (.among e es))
    (hs : Leaves H room s) :
    let look : StateM Assumed Bool := es.anyM fun e' =>
      if e'.1.isTable then compare e.1 e'.1 <&&> compare e.2 e'.2 else pure false
    Runs H (.among e es) s (look s).1 (look s).2 := by
  induction es generalizing s with
  | nil => exact .exhausted
  | cons e' es ih =>
    have hrest : Task.In S (.among e es) :=
      ⟨htask.1, fun e he => htask.2 e (List.mem_cons_of_mem _ he)⟩
    have hkeys : Task.In S (.values e.1 e'.1) :=
      ⟨htask.1.1, (htask.2 e' (List.mem_cons_self ..)).1⟩
    have hvalues : Task.In S (.values e.2 e'.2) :=
      ⟨htask.1.2, (htask.2 e' (List.mem_cons_self ..)).2⟩
    dsimp only at ih ⊢
    rw [run_anyM_cons]
    cases hkey : e'.1.isTable with
    | false =>
      rw [if_neg Bool.false_ne_true]
      exact .skipped hkey (ih hrest hs)
    | true =>
      rw [if_pos rfl, run_and]
      have hrun₁ := hcompare e.1 e'.1 s hkeys hs
      have hs₁ := hrun₁.leaves hS hkeys hs
      cases hr₁ : (compare e.1 e'.1 s).1 with
      | false =>
        rw [hr₁] at hrun₁
        rw [if_neg Bool.false_ne_true]
        exact .keysDiffer hkey hrun₁ (ih hrest hs₁)
      | true =>
        rw [hr₁] at hrun₁
        rw [if_pos rfl]
        have hrun₂ := hcompare e.2 e'.2 _ hvalues hs₁
        cases hr₂ : (compare e.2 e'.2 (compare e.1 e'.1 s).2).1 with
        | false =>
          rw [hr₂] at hrun₂
          rw [if_neg Bool.false_ne_true]
          exact .valuesDiffer hkey hrun₁ hrun₂ (ih hrest (hrun₂.leaves hS hvalues hs₁))
        | true =>
          rw [hr₂] at hrun₂
          exact .matched hkey hrun₁ hrun₂

theorem runs_hasCounterpart {e : Entry} {y : TableId} (htask : Task.In S (.entry e y))
    (hs : Leaves H room s) :
    let look := hasCounterpart compare (H.table y) e
    Runs H (.entry e y) s (look s).1 (look s).2 := by
  unfold hasCounterpart
  cases hkey : e.1.isTable with
  | true => exact .keyed hkey (runs_among hS hcompare ⟨htask.1, hS.closed y htask.2⟩ hs)
  | false =>
    cases hget : (H.table y).get? e.1 with
    | none => exact .absent hkey hget
    | some v =>
      have hv := (hS.closed y htask.2 _ (Table.mem_of_get? hget)).2
      exact .present hkey hget (hcompare e.2 v s ⟨htask.1.2, hv⟩ hs)

theorem runs_entries {es : List Entry} {y : TableId} (htask : Task.In S (.entries es y))
    (hs : Leaves H room s) :
    let look := es.allM (hasCounterpart compare (H.table y))
    Runs H (.entries es y) s (look s).1 (look s).2 := by
  induction es generalizing s with
  | nil => exact .done
  | cons e es ih =>
    have hfirst : Task.In S (.entry e y) := ⟨htask.1 e (List.mem_cons_self ..), htask.2⟩
    have hrun := runs_hasCounterpart hS hcompare hfirst hs
    have hs' := hrun.leaves hS hfirst hs
    dsimp only at ih hrun ⊢
    rw [run_allM_cons]
    cases hr : (hasCounterpart compare (H.table y) e s).1 with
    | false =>
      rw [hr] at hrun
      exact .failed hrun
    | true =>
      rw [hr] at hrun
      exact .next hrun (ih ⟨fun e he => htask.1 e (List.mem_cons_of_mem _ he), htask.2⟩ hs')

/-- Comparing two tables is a run, if comparing values is and the pair can still be assumed. -/
theorem runs_tables {x y : TableId} (hx : S x) (hy : S y) (hne : x ≠ y) (hnew : (x, y) ∉ s)
    (hs : Leaves H (room + 1) s) :
    let walk := alikeTables compare (H.table x) (H.table y) ((x, y) :: s)
    Runs H (.values (.table x) (.table y)) s walk.1
      (if walk.1 then walk.2 else walk.2.erase (x, y)) := by
  have hassumed : Leaves H room ((x, y) :: s) := by
    refine ⟨hs.toFits.cons (hS.lt x hx) (hS.lt y hy) hne hnew, ?_⟩
    have hroom := hs.room
    rw [List.length_cons]
    omega
  unfold alikeTables
  by_cases hsize : (H.table x).size = (H.table y).size
  · rw [if_pos hsize]
    exact .tables hne hnew hsize (runs_entries hS hcompare ⟨hS.closed x hx, hy⟩ hassumed)
  · rw [if_neg hsize]
    exact .sizes hne hnew hsize

omit hcompare in
/-- **A walk that is deep enough is a run.** -/
theorem runs_alikeFrom (depth : Nat) {a b : Value} (htask : Task.In S (.values a b))
    (hs : Leaves H depth s) :
    Runs H (.values a b) s (alikeFrom H depth a b s).1 (alikeFrom H depth a b s).2 := by
  induction depth generalizing a b s with
  | zero =>
    by_cases hnot : a.isTable = false ∨ b.isTable = false
    · rw [alikeFrom_of_not_table H _ hnot]
      exact .scalars hnot
    · -- all pairs would be assumed
      obtain ⟨x, rfl⟩ : ∃ x, a = .table x := by cases a <;> simp_all [Value.isTable, Value.kind]
      have hlt := hs.toFits.length_lt (hS.lt x (htask.1 x rfl))
      exact absurd hs.room (by omega)
  | succ depth ih =>
    by_cases hnot : a.isTable = false ∨ b.isTable = false
    · rw [alikeFrom_of_not_table H _ hnot]
      exact .scalars hnot
    · obtain ⟨x, rfl⟩ : ∃ x, a = .table x := by cases a <;> simp_all [Value.isTable, Value.kind]
      obtain ⟨y, rfl⟩ : ∃ y, b = .table y := by cases b <;> simp_all [Value.isTable, Value.kind]
      rw [alikeFrom_table]
      split
      · rename_i hassumed
        refine .assumed ?_
        exact (Bool.or_eq_true_iff.1 hassumed).imp beq_iff_eq.1 Assumed.holds_iff.1
      · rename_i hassumed
        rw [Bool.or_eq_true_iff, not_or, beq_iff_eq, Assumed.holds_iff] at hassumed
        exact runs_tables hS (fun a b s htask hs => ih htask hs) (htask.1 x rfl) (htask.2 y rfl)
          hassumed.1 hassumed.2 hs

omit hcompare in
/-- **Every comparison comes to an end**, with the answer that the walk gives. -/
theorem exists_runs {a b : Value} (htask : Task.In S (.values a b)) :
    ∃ s, Runs H (.values a b) [] (H.alike a b) s :=
  ⟨_, runs_alikeFrom hS _ htask ⟨⟨.nil, fun _ hp => absurd hp List.not_mem_nil,
    fun _ hp => absurd hp List.not_mem_nil⟩, Nat.le_add_left ..⟩⟩

end

end LuaGraph.Heap
