import LuaGraph.Proofs.Graph.Listing

/-!
# What a census counts

The walk of a census (`visit`) is described without its depth: `Meets children c ts c'` says that
meeting the tables `ts` one after the other, and what new ones lead to, turns the census `c` into
`c'`. A walk that is given a depth of at least the number of tables not found yet is of this kind,
since it finds a table before it goes deeper.

Results: a census finds exactly what can be reached (`mem_all_iff`), each table once, and counts how
often each table stands among the roots and the children of what was found (`count_eq`).
-/

namespace LuaGraph

/-- The tables among the keys and values of a table, in the order in which they are written. -/
def Heap.children (H : Heap) (t : TableId) : List TableId := Census.children (H.listing t)

theorem Heap.mem_children {H : Heap} {t u : TableId} :
    u ∈ H.children t ↔ ∃ e ∈ H.pairs t, e.1 = .table u ∨ e.2 = .table u := by
  rw [Heap.children, Listing.children_eq, Listing.mem_tablesOf]
  rfl

theorem Heap.perm_children {H : Heap} (h : H.WellFormed) (t : TableId) :
    (H.children t).Perm (H.below t) := by
  rw [Heap.children, Listing.children_eq]
  exact (Heap.perm_pairs h t).flatMap_right _

namespace Census

/-! ## Counts -/

variable {n : Nat} {c c' : Census} {t u : TableId} {ts : List TableId}

/-- What holds of a census in a heap of `n` tables at any time. -/
structure Sound (n : Nat) (c : Census) : Prop where
  size : c.counts.size = n
  nodup : c.all.Nodup
  lt : ∀ t ∈ c.all, t < n
  /-- The tables found are those that were counted. -/
  pos : ∀ t < n, 0 < c.count t ↔ t ∈ c.all
  /-- A table was met again if one was counted twice. -/
  repeats : c.repeats = true ↔ ∃ t, 1 < c.count t

theorem count_again (h : t < c.counts.size) (u : TableId) :
    (c.again t).count u = c.count u + [t].count u := by
  unfold again count
  simp only [Array.getD_eq_getD_getElem?, Array.getElem?_modify]
  by_cases hu : t = u
  · subst hu
    simp [h]
  · simp [hu]

theorem count_first (h : t < c.counts.size) (u : TableId) :
    (c.first t).count u = c.count u + [t].count u := count_again h u

theorem all_first (c : Census) (t : TableId) : (c.first t).all = c.all ++ [t] := Array.toList_push

theorem count_start (H : Heap) (t : TableId) : (Census.start H).count t = 0 := by
  simp only [count, start, Array.getD_eq_getD_getElem?, Array.getElem?_replicate]
  split <;> rfl

theorem Sound.start (H : Heap) : Sound H.size (start H) where
  size := Array.size_replicate
  nodup := .nil
  lt t h := absurd h List.not_mem_nil
  pos t h := by
    rw [count_start]
    exact ⟨fun h => absurd h (Nat.lt_irrefl 0), fun h => absurd h List.not_mem_nil⟩
  repeats := by
    simp only [count_start]
    exact ⟨fun h => (Bool.false_ne_true h).elim, fun ⟨_, h⟩ => absurd h (Nat.not_lt_zero 1)⟩

theorem Sound.again (h : Sound n c) (ht : t < n) (hc : 0 < c.count t) : Sound n (c.again t) where
  size := by rw [Census.again, Array.size_modify, h.size]
  nodup := h.nodup
  lt := h.lt
  pos u hu := by
    rw [count_again (h.size.symm ▸ ht)]
    have hpos := h.pos u hu
    by_cases hut : u = t
    · subst hut
      exact ⟨fun _ => hpos.1 hc, fun _ => by omega⟩
    · have : [t].count u = 0 := List.count_eq_zero.2 (by simpa using hut)
      rw [this]
      exact hpos
  repeats := by
    refine ⟨fun _ => ⟨t, ?_⟩, fun _ => rfl⟩
    rw [count_again (h.size.symm ▸ ht), List.count_singleton_self]
    omega

theorem Sound.first (h : Sound n c) (ht : t < n) (hc : c.count t = 0) : Sound n (c.first t) := by
  have hnot : t ∉ c.all := fun hmem => by
    have := (h.pos t ht).2 hmem
    omega
  have hone (u : TableId) : 1 < (c.first t).count u ↔ 1 < c.count u := by
    rw [count_first (h.size.symm ▸ ht)]
    by_cases hut : u = t
    · subst hut
      simp [hc]
    · have : [t].count u = 0 := List.count_eq_zero.2 (by simpa using hut)
      rw [this, Nat.add_zero]
  refine ⟨by rw [Census.first, Array.size_modify, h.size], ?_, ?_, ?_, ?_⟩
  · rw [all_first]
    refine List.nodup_append.2 ⟨h.nodup, List.nodup_singleton t, ?_⟩
    rintro a ha b hb rfl
    exact hnot (List.mem_singleton.1 hb ▸ ha)
  · intro u hu
    rw [all_first, List.mem_append, List.mem_singleton] at hu
    exact hu.elim (h.lt u) (fun heq => heq ▸ ht)
  · intro u hu
    have hpos := h.pos u hu
    rw [count_first (h.size.symm ▸ ht), all_first, List.mem_append, List.mem_singleton]
    by_cases hut : u = t
    · subst hut
      simp
    · have : [t].count u = 0 := List.count_eq_zero.2 (by simpa using hut)
      rw [this, Nat.add_zero, hpos]
      simp [hut]
  · simp only [hone]
    exact h.repeats

/-- A census that found as many tables as there are has found them all. -/
theorem Sound.mem_of_size_le (h : Sound n c) (hn : n ≤ c.size) (ht : t < n) : t ∈ c.all := by
  refine Decidable.byContradiction fun hnot => ?_
  have hsub : t :: c.all ⊆ List.range n := by
    intro u hu
    rcases List.mem_cons.1 hu with rfl | hu
    · exact List.mem_range.2 ht
    · exact List.mem_range.2 (h.lt u hu)
  have := (List.subperm_of_subset (List.nodup_cons.2 ⟨hnot, h.nodup⟩) hsub).length_le
  rw [List.length_cons, List.length_range] at this
  have : c.size = c.all.length := Array.length_toList.symm
  omega

/-! ## Walks -/

/-- Meeting the tables one after the other turns one census into the other. -/
inductive Meets (children : TableId → List TableId) : Census → List TableId → Census → Prop
  | nil {c : Census} : Meets children c [] c
  | again {c c' : Census} {t : TableId} {ts : List TableId} : 0 < c.count t →
      Meets children (c.again t) ts c' →
      Meets children c (t :: ts) c'
  | first {c c₁ c' : Census} {t : TableId} {ts : List TableId} : c.count t = 0 →
      Meets children (c.first t) (children t) c₁ →
      Meets children c₁ ts c' → Meets children c (t :: ts) c'

variable {children : TableId → List TableId}

namespace Meets

theorem append {us : List TableId} {c'' : Census} (h : Meets children c ts c')
    (h' : Meets children c' us c'') : Meets children c (ts ++ us) c'' := by
  induction h with
  | nil => exact h'
  | again hc _ ih => exact .again hc (ih h')
  | first hc h₁ _ _ ih => exact .first hc h₁ (ih h')

/-- A walk has one result. -/
theorem functional {c'' : Census} (h : Meets children c ts c') (h' : Meets children c ts c'') :
    c' = c'' := by
  induction h generalizing c'' with
  | nil =>
    cases h'
    rfl
  | again hc _ ih =>
    cases h' with
    | again _ h => exact ih h
    | first hc' _ _ => exact absurd hc' (Nat.ne_of_gt hc)
  | first hc _ _ ih₁ ih₂ =>
    cases h' with
    | again hc' _ => exact absurd hc (Nat.ne_of_gt hc')
    | first _ h₁ h₂ =>
      cases ih₁ h₁
      exact ih₂ h₂

section

variable (hchildren : ∀ t, ∀ u ∈ children t, u < n)
include hchildren

theorem sound (h : Meets children c ts c') (hs : Sound n c) (hts : ∀ t ∈ ts, t < n) :
    Sound n c' := by
  induction h with
  | nil => exact hs
  | again hc _ ih =>
    exact ih (hs.again (hts _ (List.mem_cons_self ..)) hc)
      fun u hu => hts u (List.mem_cons_of_mem _ hu)
  | first hc _ _ ih₁ ih₂ =>
    exact ih₂ (ih₁ (hs.first (hts _ (List.mem_cons_self ..)) hc) (hchildren _))
      fun u hu => hts u (List.mem_cons_of_mem _ hu)

omit hchildren in
theorem count_cons_eq (t : TableId) (ts : List TableId) (u : TableId) :
    (t :: ts).count u = [t].count u + ts.count u := by
  rw [← List.count_append, List.singleton_append]

/-- **What a walk finds and counts**: the tables found come after those found before, and every
table is counted for each time that it stands among the tables to be met and the children of those
found. -/
theorem counts (h : Meets children c ts c') (hs : Sound n c) (hts : ∀ t ∈ ts, t < n) :
    ∃ new, c'.all = c.all ++ new ∧
      ∀ u, c'.count u = c.count u + ts.count u + (new.flatMap children).count u := by
  induction h with
  | nil => exact ⟨[], (List.append_nil _).symm, fun u => rfl⟩
  | @again c c' t ts hc _ ih =>
    have ht := hts t (List.mem_cons_self ..)
    obtain ⟨new, hall, hcount⟩ := ih (hs.again ht hc) fun u hu => hts u (List.mem_cons_of_mem _ hu)
    refine ⟨new, hall, fun u => ?_⟩
    rw [hcount, count_again (hs.size.symm ▸ ht), count_cons_eq t ts]
    omega
  | @first c c₁ c' t ts hc h₁ _ ih₁ ih₂ =>
    have ht := hts t (List.mem_cons_self ..)
    have hfirst := hs.first ht hc
    obtain ⟨new₁, hall₁, hcount₁⟩ := ih₁ hfirst (hchildren t)
    obtain ⟨new₂, hall₂, hcount₂⟩ := ih₂ (h₁.sound hchildren hfirst (hchildren t))
      fun u hu => hts u (List.mem_cons_of_mem _ hu)
    refine ⟨t :: new₁ ++ new₂, ?_, fun u => ?_⟩
    · rw [hall₂, hall₁, all_first]
      simp
    · rw [hcount₂, hcount₁, count_first (hs.size.symm ▸ ht), count_cons_eq t ts,
        List.cons_append, List.flatMap_cons, List.flatMap_append,
        List.count_append, List.count_append]
      omega

end

end Meets

/-! ## The walk of a census -/

section

variable {H : Heap} (h : H.WellFormed)
include h

theorem lt_of_mem_children (t u : TableId) (hu : u ∈ H.children t) :
    u < H.size := by
  obtain ⟨e, he, hu⟩ := Heap.mem_children.1 hu
  have hclosed := h.closed t e ((Heap.mem_pairs h).1 he).1
  exact hu.elim (hclosed.1 u) (hclosed.2 u)

/-- **A walk is deep enough** if no more tables are to be found than its depth. -/
theorem meets_visit (depth : Nat) {c : Census} {t : TableId} (hs : Sound H.size c)
    (ht : t < H.size) (hd : H.size ≤ c.size + depth) :
    Meets H.children c [t] (visit H depth c t) := by
  induction depth generalizing c t with
  | zero => exact .again ((hs.pos t ht).2 (hs.mem_of_size_le hd ht)) .nil
  | succ depth ih =>
    unfold visit
    split
    · rename_i hc
      have hfold (ts : List TableId) {c : Census} (hs : Sound H.size c) (hts : ∀ t ∈ ts, t < H.size)
          (hd : H.size ≤ c.size + depth) : Meets H.children c ts
            (ts.foldl (visit H depth) c) := by
        induction ts generalizing c with
        | nil => exact .nil
        | cons t ts ihts =>
          have ht := hts t (List.mem_cons_self ..)
          have hvisit := ih hs ht hd
          have hsound := hvisit.sound (lt_of_mem_children h) hs (by simpa using ht)
          obtain ⟨new, hall, -⟩ := hvisit.counts (lt_of_mem_children h) hs (by simpa using ht)
          have hsize := congrArg List.length hall
          rw [List.length_append] at hsize
          have hle : c.size ≤ (visit H depth c t).size := by
            unfold size
            rw [← Array.length_toList, ← Array.length_toList]
            unfold all at hsize
            omega
          have hlt : ∀ u ∈ ts, u < H.size := fun u hu => hts u (List.mem_cons_of_mem _ hu)
          exact hvisit.append (ihts hsound hlt (by omega))
      have hsize : (c.first t).size = c.size + 1 := Array.size_push ..
      exact .first hc (hfold _ (hs.first ht hc) (lt_of_mem_children h t) (by omega)) .nil
    · rename_i hc
      exact .again (Nat.pos_of_ne_zero hc) .nil

/-- The walk through some values meets the tables among them. -/
theorem meets_ofValues {vs : List Value} (hvs : ∀ v ∈ vs, v.InHeap H) :
    Meets H.children (start H) (vs.filterMap Value.table?)
      (ofValues H vs) := by
  unfold ofValues
  have hfold {c : Census} (hs : Sound H.size c) : Meets H.children c
      (vs.filterMap Value.table?) (vs.foldl (visitValue H) c) := by
    induction vs generalizing c with
    | nil => exact .nil
    | cons v vs ih =>
      have hrest := fun v hv => hvs v (List.mem_cons_of_mem _ hv)
      rw [List.filterMap_cons, List.foldl_cons, visitValue]
      cases hv : v.table? with
      | none => exact ih hrest hs
      | some t =>
        have ht : t < H.size :=
          hvs v (List.mem_cons_self ..) t (by cases v <;> simp_all [Value.table?])
        have hvisit := meets_visit h H.size hs ht (Nat.le_add_left ..)
        exact hvisit.append (ih hrest
          (hvisit.sound (lt_of_mem_children h) hs (by simpa using ht)))
  exact hfold (.start H)

end

/-! ## Reaching tables -/

/-- The table can be reached from the roots. -/
inductive Reach (children : TableId → List TableId) (roots : List TableId) : TableId → Prop
  | root {t : TableId} : t ∈ roots → Reach children roots t
  | child {t u : TableId} : Reach children roots u → t ∈ children u → Reach children roots t

/-- What can be reached from roots that can be reached, along fewer ways, can be reached. -/
theorem Reach.mono {children' : TableId → List TableId} {roots roots' : List TableId}
    (h : Reach children roots t) (hroots : ∀ u ∈ roots, Reach children' roots' u)
    (hsub : ∀ t, ∀ u ∈ children t, u ∈ children' t) : Reach children' roots' t := by
  induction h with
  | root h => exact hroots _ h
  | child _ h ih => exact .child ih (hsub _ _ h)

theorem Reach.congr {children' : TableId → List TableId} {roots roots' : List TableId}
    (hroots : ∀ u, u ∈ roots ↔ u ∈ roots') (hchildren : ∀ t u, u ∈ children t ↔ u ∈ children' t) :
    Reach children roots t ↔ Reach children' roots' t :=
  ⟨fun h => h.mono (fun u hu => .root ((hroots u).1 hu)) fun t u => (hchildren t u).1,
    fun h => h.mono (fun u hu => .root ((hroots u).2 hu)) fun t u => (hchildren t u).2⟩

theorem Reach.self : Reach children [t] t := .root (List.mem_singleton_self t)

/-- Two ways are one way. -/
theorem Reach.trans {roots : List TableId} {u : TableId} (ht : Reach children roots t)
    (hu : Reach children [t] u) : Reach children roots u :=
  hu.mono (fun _ hroot => List.mem_singleton.1 hroot ▸ ht) fun _ _ => id

/-- The order in which tables are listed does not matter to what can be reached. -/
theorem reach_children_iff {H : Heap} (h : H.WellFormed) {roots : List TableId} :
    Reach H.children roots t ↔ Reach H.below roots t :=
  Reach.congr (fun _ => Iff.rfl) fun t _ => (Heap.perm_children h t).mem_iff

/-- A walk finds only what can be reached. -/
theorem Meets.reach {roots : List TableId} (h : Meets children c ts c')
    (hts : ∀ t ∈ ts, Reach children roots t) (hc : ∀ t ∈ c.all, Reach children roots t) :
    ∀ t ∈ c'.all, Reach children roots t := by
  induction h with
  | nil => exact hc
  | again _ _ ih => exact ih (fun u hu => hts u (List.mem_cons_of_mem _ hu)) hc
  | first _ _ _ ih₁ ih₂ =>
    have ht := hts _ (List.mem_cons_self ..)
    refine ih₂ (fun u hu => hts u (List.mem_cons_of_mem _ hu)) (ih₁ (fun u hu => .child ht hu) ?_)
    intro u hu
    rw [all_first, List.mem_append, List.mem_singleton] at hu
    exact hu.elim (hc u) (fun heq => heq ▸ ht)

section

variable {H : Heap} (h : H.WellFormed) {vs : List Value} (hvs : ∀ v ∈ vs, v.InHeap H)
include h hvs

omit h in
theorem lt_of_mem_roots {t : TableId} (ht : t ∈ vs.filterMap Value.table?) : t < H.size := by
  obtain ⟨v, hv, ht⟩ := List.mem_filterMap.1 ht
  exact hvs v hv t (by cases v <;> simp_all [Value.table?])

theorem sound_ofValues : Sound H.size (ofValues H vs) :=
  (meets_ofValues h hvs).sound (lt_of_mem_children h) (.start H) fun _ => lt_of_mem_roots hvs

/-- **How often a table is counted**: once for each time that it stands among the values or the
children of a table found. -/
theorem count_eq (t : TableId) : (ofValues H vs).count t =
    (vs.filterMap Value.table?).count t +
      ((ofValues H vs).all.flatMap H.children).count t := by
  obtain ⟨new, hall, hcount⟩ := (meets_ofValues h hvs).counts (lt_of_mem_children h) (.start H)
    fun _ => lt_of_mem_roots hvs
  have hnil : (start H).all = [] := rfl
  rw [hnil, List.nil_append] at hall
  rw [hcount, count_start, hall, Nat.zero_add]

/-- **A census finds exactly the tables that can be reached.** -/
theorem mem_all_iff {t : TableId} : t ∈ (ofValues H vs).all ↔
    Reach H.children (vs.filterMap Value.table?) t := by
  have hsound := sound_ofValues h hvs
  constructor
  · exact (meets_ofValues h hvs).reach (fun u hu => .root hu)
      (fun u hu => absurd hu List.not_mem_nil) t
  · intro ht
    induction ht with
    | @root t ht =>
      refine (hsound.pos t (lt_of_mem_roots hvs ht)).1 ?_
      have := List.count_pos_iff.2 ht
      rw [count_eq h hvs]
      omega
    | @child t u _ ht hu =>
      refine (hsound.pos t (lt_of_mem_children h u t ht)).1 ?_
      have := List.count_pos_iff.2 (List.mem_flatMap.2 ⟨u, hu, ht⟩)
      rw [count_eq h hvs]
      omega

end

end Census

/-- All entries of a table. -/
def Heap.entries (H : Heap) (t : TableId) : List Entry := (H.table t).entries

/-- The tables that can be reached from the keys and values of a table, with the entries that each
table has. -/
def Leads (entries : TableId → List Entry) (t : TableId) : TableId → Prop :=
  Census.Reach (fun u => Listing.tablesOf (entries u)) (Listing.tablesOf (entries t))

end LuaGraph
