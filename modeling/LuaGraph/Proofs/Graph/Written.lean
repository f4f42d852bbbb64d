import LuaGraph.Proofs.Graph.Census
import Mathlib.Data.List.Flatten

/-!
# Tables that are written out

Where a table without a slot stands, it is written out with all that it holds. `written` lists the
tables that are written out in place of a table, in the order of their opening braces.

Among tables that are all written out from some roots none comes twice, provided that no table
without a slot stands twice among the roots and the children of what can be reached; and if nothing
is cut off at the depth, every table that can be reached has a slot or is written out.

Results: `nodup_written`, `mem_written_of_reach`.
-/

namespace LuaGraph

variable {children : TableId → List TableId} {slotted : TableId → Bool}

/-- The tables that are written out in place of a table, down to a depth. -/
def written (children : TableId → List TableId) (slotted : TableId → Bool) :
    Nat → TableId → List TableId
  | 0, _ => []
  | depth + 1, t =>
    if slotted t then [] else t :: (children t).flatMap (written children slotted depth)

/-- The tables without a slot. -/
def unslotted (slotted : TableId → Bool) (ts : List TableId) : List TableId :=
  ts.filter fun t => !slotted t

/-! ## Levels -/

/-- Writing out a list of tables, from the outermost on: the tables themselves and what stands in
their place one level below. -/
theorem perm_written_outer (children : TableId → List TableId) (slotted : TableId → Bool)
    (depth : Nat) (ts : List TableId) :
    (ts.flatMap (written children slotted (depth + 1))).Perm
      (unslotted slotted ts ++
        ((unslotted slotted ts).flatMap children).flatMap (written children slotted depth)) := by
  induction ts with
  | nil => exact .nil
  | cons t ts ih =>
    rw [List.flatMap_cons, written, unslotted, List.filter_cons]
    cases ht : slotted t with
    | true => exact ih
    | false =>
      simp only [Bool.false_eq_true, if_false, Bool.not_false, if_true, List.flatMap_cons,
        List.flatMap_append, List.cons_append]
      refine .cons t (((ih.append_left _).trans ?_))
      rw [← List.append_assoc, ← List.append_assoc]
      exact List.perm_append_comm.append_right _

/-- Writing out a list of tables, from the innermost on: the tables themselves and the children of
what is written out one level less deep. -/
theorem perm_written_inner (children : TableId → List TableId) (slotted : TableId → Bool)
    (depth : Nat) (ts : List TableId) :
    (ts.flatMap (written children slotted (depth + 1))).Perm
      (unslotted slotted ts ++
        unslotted slotted ((ts.flatMap (written children slotted depth)).flatMap children)) := by
  induction depth generalizing ts with
  | zero =>
    refine (perm_written_outer children slotted 0 ts).trans ?_
    have hnil (us : List TableId) : us.flatMap (written children slotted 0) = [] :=
      List.flatMap_eq_nil_iff.2 fun _ _ => rfl
    rw [hnil, hnil]
    exact .refl _
  | succ depth ih =>
    refine (perm_written_outer children slotted (depth + 1) ts).trans ?_
    refine (((ih _).append_left _).trans ?_)
    have houter := perm_written_outer children slotted depth ts
    have := ((houter.flatMap_right children).filter fun t => !slotted t).append_left
      (unslotted slotted ts)
    refine .trans ?_ this.symm
    rw [List.flatMap_append, List.filter_append]
    exact .refl _

/-! ## Each table once -/

theorem mem_unslotted {ts : List TableId} {t : TableId} :
    t ∈ unslotted slotted ts ↔ t ∈ ts ∧ slotted t = false := by
  simp [unslotted]

/-- **No table is written out twice**, and only those that were found are, if each table without a
slot stands once at most among the roots and the children of what was found. -/
theorem nodup_written {found roots : List TableId}
    (hroots : ∀ t ∈ roots, t ∈ found) (hclosed : ∀ t ∈ found, ∀ u ∈ children t, u ∈ found)
    (hcount : ∀ t, slotted t = false →
      roots.count t + ((unslotted slotted found).flatMap children).count t ≤ 1) (depth : Nat) :
    (roots.flatMap (written children slotted depth)).Nodup ∧
      ∀ t ∈ roots.flatMap (written children slotted depth), t ∈ unslotted slotted found := by
  induction depth with
  | zero =>
    have hnil : roots.flatMap (written children slotted 0) = [] :=
      List.flatMap_eq_nil_iff.2 fun _ _ => rfl
    rw [hnil]
    exact ⟨.nil, fun t ht => absurd ht List.not_mem_nil⟩
  | succ depth ih =>
    obtain ⟨ihnodup, ihmem⟩ := ih
    have hperm := perm_written_inner children slotted depth roots
    generalize roots.flatMap (written children slotted depth) = ws at *
    refine ⟨?_, fun t ht => ?_⟩
    · rw [hperm.nodup_iff, List.nodup_iff_count_le_one]
      intro t
      by_cases ht : slotted t = true
      · have hnot (ts : List TableId) : (unslotted slotted ts).count t = 0 :=
          List.count_eq_zero.2 fun hmem => by simp [mem_unslotted, ht] at hmem
        rw [List.count_append, hnot, hnot]
        exact Nat.zero_le _
      · have ht : slotted t = false := by simpa using ht
        have hsame (ts : List TableId) : (unslotted slotted ts).count t = ts.count t :=
          List.count_filter (by rw [ht]; rfl)
        rw [List.count_append, hsame, hsame]
        -- What is written out so far is a part of what was found.
        obtain ⟨us, hperm', hsub⟩ := List.subperm_of_subset ihnodup ihmem
        have := (hperm'.flatMap_right children).count_eq t
        have := (hsub.flatMap children).count_le t
        have := hcount t ht
        omega
    · rcases List.mem_append.1 (hperm.mem_iff.1 ht) with ht | ht
      · exact mem_unslotted.2 ⟨hroots t (mem_unslotted.1 ht).1, (mem_unslotted.1 ht).2⟩
      · obtain ⟨ht, hslot⟩ := mem_unslotted.1 ht
        obtain ⟨u, hu, ht⟩ := List.mem_flatMap.1 ht
        exact mem_unslotted.2 ⟨hclosed u (mem_unslotted.1 (ihmem u hu)).1 t ht, hslot⟩

/-! ## Each table that can be reached -/

/-- **Every table that can be reached has a slot or is written out**, if nothing more is written out
one level deeper. -/
theorem mem_written_of_reach {roots slots : List TableId} {depth : Nat}
    (hslots : ∀ t, slotted t = true ↔ t ∈ slots)
    (hdeep : ∀ t ∈ roots ++ slots.flatMap children,
      written children slotted (depth + 1) t = written children slotted depth t) {t : TableId}
    (ht : Census.Reach children roots t) :
    t ∈ slots ∨ t ∈ (roots ++ slots.flatMap children).flatMap (written children slotted depth) := by
  have heq : (roots ++ slots.flatMap children).flatMap (written children slotted (depth + 1)) =
      (roots ++ slots.flatMap children).flatMap (written children slotted depth) :=
    List.flatMap_congr hdeep
  have hperm := perm_written_inner children slotted depth
    (roots ++ slots.flatMap children)
  rw [heq] at hperm
  have hopen (u : TableId) (hu : u ∈ roots ++ slots.flatMap children ∨
      u ∈ ((roots ++ slots.flatMap children).flatMap (written children slotted depth)).flatMap
        children) : u ∈ slots ∨
          u ∈ (roots ++ slots.flatMap children).flatMap (written children slotted depth) := by
    by_cases hslot : slotted u = true
    · exact .inl ((hslots u).1 hslot)
    · have hslot : slotted u = false := by simpa using hslot
      refine .inr (hperm.mem_iff.2 (List.mem_append.2 ?_))
      exact hu.imp (fun h => mem_unslotted.2 ⟨h, hslot⟩) (fun h => mem_unslotted.2 ⟨h, hslot⟩)
  induction ht with
  | root h => exact hopen _ (.inl (List.mem_append_left _ h))
  | child _ hu ih =>
    refine hopen _ ?_
    rcases ih with ih | ih
    · exact .inl (List.mem_append_right _ (List.mem_flatMap.2 ⟨_, ih, hu⟩))
    · exact .inr (List.mem_flatMap.2 ⟨_, ih, hu⟩)

end LuaGraph
