import LuaGraph.Proofs.Graph.Census
import Mathlib.Data.List.Chain
import Mathlib.Data.List.Flatten
import Mathlib.Logic.Function.Iterate

/-!
# The order of a census and its cycles

A census finds tables depth first, each before what it leads to (`DepthFirst`). It can be taken, as
`visit` does, with a stack of the values that are still to be met, which ends empty (`Meets.turns`).

A cycle of tables that can be reached is entered somewhere, so one of its tables is met from the
cycle and from outside it: a table that is met more than once.

Results: `preorder_ofValues`, `turns_ofValues` and **`exists_count_of_cycle`**.
-/

namespace LuaGraph

/-! ## Depth first -/

/-- Going through some tables and what they lead to, depth first and past the tables that were
`seen`, finds new tables in this order. -/
inductive DepthFirst (children : TableId → List TableId) :
    List TableId → List TableId → List TableId → Prop
  | nil {seen : List TableId} : DepthFirst children seen [] []
  | seen {seen ts new : List TableId} {t : TableId} : t ∈ seen → DepthFirst children seen ts new →
      DepthFirst children seen (t :: ts) new
  | found {seen below ts new : List TableId} {t : TableId} : t ∉ seen →
      DepthFirst children (seen ++ [t]) (children t) below →
      DepthFirst children (seen ++ t :: below) ts new →
      DepthFirst children seen (t :: ts) (t :: below ++ new)

/-- There is one such order. -/
theorem DepthFirst.functional {children : TableId → List TableId} {seen ts new new' : List TableId}
    (h : DepthFirst children seen ts new) (h' : DepthFirst children seen ts new') : new = new' := by
  induction h generalizing new' with
  | nil =>
    cases h'
    rfl
  | seen ht _ ih =>
    cases h' with
    | seen _ h => exact ih h
    | found hnot _ _ => exact absurd ht hnot
  | found hnot _ _ ih₁ ih₂ =>
    cases h' with
    | seen ht _ => exact absurd ht hnot
    | found _ h₁ h₂ =>
      cases ih₁ h₁
      rw [ih₂ h₂]

namespace Census

section

variable {n : Nat} {c c' : Census} {ts : List TableId} {children : TableId → List TableId}
  (hchildren : ∀ t, ∀ u ∈ children t, u < n)
include hchildren

/-- **A walk finds tables depth first.** -/
theorem Meets.preorder (h : Meets children c ts c') (hs : Sound n c) (hts : ∀ t ∈ ts, t < n) :
    ∃ new, c'.all = c.all ++ new ∧ DepthFirst children c.all ts new := by
  induction h with
  | nil => exact ⟨[], (List.append_nil _).symm, .nil⟩
  | @again c c' t ts hc _ ih =>
    have ht := hts t (List.mem_cons_self ..)
    obtain ⟨new, hall, hnew⟩ := ih (hs.again ht hc) fun u hu => hts u (List.mem_cons_of_mem _ hu)
    exact ⟨new, hall, .seen ((hs.pos t ht).1 hc) hnew⟩
  | @first c c₁ c' t ts hc h₁ _ ih₁ ih₂ =>
    have ht := hts t (List.mem_cons_self ..)
    have hfirst := hs.first ht hc
    have hnot : t ∉ c.all := fun hmem => Nat.ne_of_gt ((hs.pos t ht).2 hmem) hc
    obtain ⟨below, hbelow, hpre⟩ := ih₁ hfirst (hchildren t)
    obtain ⟨new, hall, hnew⟩ := ih₂ (h₁.sound hchildren hfirst (hchildren t))
      fun u hu => hts u (List.mem_cons_of_mem _ hu)
    rw [all_first] at hbelow hpre
    rw [List.append_assoc, List.singleton_append] at hbelow
    rw [hbelow] at hall hnew
    exact ⟨t :: below ++ new, by rw [hall, List.append_assoc], .found hnot hpre hnew⟩

end

/-! ## The stack -/

/-- One turn with a stack of values: the first one is taken off, and if it is a new table, then the
tables that it leads to are put on. -/
def turn (children : TableId → List TableId) : Census × List Value → Census × List Value
  | (c, []) => (c, [])
  | (c, v :: stack) =>
    match v.table? with
    | none => (c, stack)
    | some t =>
      if c.count t = 0 then (c.first t, (children t).map .table ++ stack) else (c.again t, stack)

section

variable {c c' : Census} {ts : List TableId} {children : TableId → List TableId}

/-- **The stack meets the same tables as the walk**, and comes to what was below them. -/
theorem Meets.turns (h : Meets children c ts c') (stack : List Value) :
    ∃ k, (turn children)^[k] (c, ts.map .table ++ stack) = (c', stack) := by
  induction h generalizing stack with
  | nil => exact ⟨0, rfl⟩
  | @again c c' t ts hc _ ih =>
    obtain ⟨k, hk⟩ := ih stack
    have hturn : turn children (c, (t :: ts).map .table ++ stack) =
        (c.again t, ts.map .table ++ stack) := if_neg (Nat.ne_of_gt hc)
    exact ⟨k + 1, by rw [Function.iterate_succ_apply, hturn, hk]⟩
  | @first c c₁ c' t ts hc _ _ ih₁ ih₂ =>
    obtain ⟨k₁, hk₁⟩ := ih₁ (ts.map .table ++ stack)
    obtain ⟨k₂, hk₂⟩ := ih₂ stack
    have hturn : turn children (c, (t :: ts).map .table ++ stack) =
        (c.first t, (children t).map .table ++ (ts.map .table ++ stack)) := if_pos hc
    refine ⟨k₂ + k₁ + 1, ?_⟩
    rw [Function.iterate_succ_apply, hturn, Function.iterate_add_apply, hk₁, hk₂]

end

section

variable {H : Heap} (h : H.WellFormed) {vs : List Value} (hvs : ∀ v ∈ vs, v.InHeap H)
include h hvs

/-- A census is in the order of the tables that it starts from. -/
theorem preorder_ofValues :
    DepthFirst H.children [] (vs.filterMap Value.table?) (ofValues H vs).all := by
  obtain ⟨new, hall, hnew⟩ := (meets_ofValues h hvs).preorder (lt_of_mem_children h) (.start H)
    fun _ => lt_of_mem_roots hvs
  rw [hall]
  exact hnew

/-- One more value is visited in finitely many turns. -/
theorem turns_ofValues {v : Value} (hv : v.InHeap H) :
    ∃ k, (turn H.children)^[k] (ofValues H vs, [v]) = (ofValues H (vs ++ [v]), []) := by
  have hnext : ofValues H (vs ++ [v]) = visitValue H (ofValues H vs) v := List.foldl_append ..
  rw [hnext, visitValue]
  cases ht : v.table? with
  | none => exact ⟨1, by simp [turn, ht]⟩
  | some t =>
    have heq : v = .table t := by cases v <;> simp_all [Value.table?]
    have hwalk := meets_visit h H.size (sound_ofValues h hvs) (hv t heq) (Nat.le_add_left ..)
    rw [heq]
    exact hwalk.turns []

end

/-! ## Cycles -/

/-- Whatever comes after the first element of a chain has one before it. -/
theorem exists_before {α : Type} {R : α → α → Prop} {x y : α} {xs : List α}
    (h : List.IsChain R (x :: xs)) (hy : y ∈ xs) : ∃ z ∈ x :: xs.dropLast, R z y := by
  induction xs generalizing x with
  | nil => exact absurd hy List.not_mem_nil
  | cons w ws ih =>
    obtain ⟨hxw, hws⟩ := List.isChain_cons_cons.1 h
    rcases List.mem_cons.1 hy with rfl | hy
    · exact ⟨x, List.mem_cons_self .., hxw⟩
    · obtain ⟨z, hz, hzy⟩ := ih hws hy
      refine ⟨z, List.mem_cons_of_mem _ ?_, hzy⟩
      rwa [List.dropLast_cons_of_ne_nil (List.ne_nil_of_mem hy)]

/-- What stands in the lists of two elements comes twice at least in all of them. -/
theorem one_lt_count_flatMap {α β : Type} [BEq β] [LawfulBEq β] {f : α → List β} {xs : List α}
    {a b : α} {y : β} (ha : a ∈ xs) (hb : b ∈ xs) (hne : a ≠ b) (hya : y ∈ f a) (hyb : y ∈ f b) :
    1 < (xs.flatMap f).count y := by
  have htwo : [a, b].Nodup := List.nodup_cons.2 ⟨by simpa using hne, List.nodup_singleton b⟩
  have hboth : [a, b] ⊆ xs := by simp [ha, hb]
  obtain ⟨ys, hperm, hsub⟩ := List.subperm_of_subset htwo hboth
  have hfew := (hsub.flatMap f).count_le y
  have hsame := (hperm.flatMap_right f).count_eq y
  have hpos := List.count_pos_iff.2 hya
  have hpos' := List.count_pos_iff.2 hyb
  simp only [List.flatMap_cons, List.flatMap_nil, List.append_nil, List.count_append] at hsame
  omega

/-- **A cycle that can be reached holds a table that is met more than once.** -/
theorem exists_count_of_cycle {H : Heap} (h : H.WellFormed) {vs : List Value}
    (hvs : ∀ v ∈ vs, v.InHeap H) {t : TableId} {path : List TableId}
    (ht : t ∈ (ofValues H vs).all)
    (hcycle : List.IsChain (fun u w => w ∈ H.children u) (t :: (path ++ [t]))) :
    ∃ u ∈ t :: path, 1 < (ofValues H vs).count u := by
  have hfound {u : TableId} := mem_all_iff (t := u) h hvs
  have hbefore (u : TableId) (hu : u ∈ t :: path) : ∃ w ∈ t :: path, u ∈ H.children w := by
    have hu : u ∈ path ++ [t] := by simpa [or_comm] using hu
    simpa using exists_before hcycle hu
  have hall (u : TableId) (hu : u ∈ t :: path) : u ∈ (ofValues H vs).all := by
    refine hcycle.induction (· ∈ (ofValues H vs).all) _
      (fun u w hw hu => hfound.2 (.child (hfound.1 hu) hw)) (fun _ => ht) u ?_
    rcases List.mem_cons.1 hu with rfl | hu
    · exact List.mem_cons_self ..
    · exact List.mem_cons_of_mem _ (List.mem_append_left _ hu)
  refine Decidable.byContradiction fun hnone => ?_
  have honce (u : TableId) (hu : u ∈ t :: path) : (ofValues H vs).count u ≤ 1 :=
    Nat.le_of_not_lt fun hlt => hnone ⟨u, hu, hlt⟩
  -- Then no table of the cycle can be reached: it is met from the cycle only.
  have houtside (u : TableId) (hu : Reach H.children (vs.filterMap Value.table?) u) :
      u ∉ t :: path := by
    induction hu with
    | @root u hu =>
      intro hmem
      obtain ⟨w, hw, huw⟩ := hbefore u hmem
      have hcount := count_eq h hvs u
      have hroot := List.count_pos_iff.2 hu
      have hchild := List.count_pos_iff.2 (List.mem_flatMap.2 ⟨w, hall w hw, huw⟩)
      have hle := honce u hmem
      omega
    | @child u w hw hu hnot =>
      intro hmem
      obtain ⟨w', hw', huw'⟩ := hbefore u hmem
      have hne : w ≠ w' := fun heq => hnot (heq ▸ hw')
      have hcount := count_eq h hvs u
      have htwice := one_lt_count_flatMap (hfound.2 hw) (hall w' hw') hne hu huw'
      have hle := honce u hmem
      omega
  exact houtside t (hfound.1 ht) (List.mem_cons_self ..)

end Census

end LuaGraph
