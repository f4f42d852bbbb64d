import LuaGraph.Proofs.Graph.Listing
import LuaGraph.Proofs.Order.Laws

/-!
# Sorted entries

Entries are sorted by their keys (`sort_entries`), whatever decides between level keys. Only tables
can be level with one another: those with the same signature. The sort does not panic if no NaN is
among the values of level keys, nor if there are 20 entries at most. And where no keys are level,
entries are written in one order, however they came in.

Results: `pairwise_sortEntries`, **`exists_sortEntries`** and **`map_eq_of_apart`**.
-/

namespace LuaGraph

theorem Value.eq_table_of_isTable {v : Value} (h : v.isTable = true) : ∃ t, v = .table t := by
  cases v with
  | table t => exact ⟨t, rfl⟩
  | _ => cases h

/-- The value is NaN. -/
def Value.isNaN : Value → Bool
  | number n => n.isNaN
  | _ => false

theorem Value.isNaN_ofValue (text : TableId → String) (v : Value) :
    (OrderKey.ofValue text v).isNaN = v.isNaN := by
  cases v <;> rfl

/-- Entries that no two have the same key of. -/
structure Distinct (es : List Entry) : Prop where
  isKey : ∀ e ∈ es, e.1.IsKey
  nodup : (es.map Prod.fst).Nodup

theorem Table.WellFormed.distinct {t : Table} (h : t.WellFormed) : Distinct t.entries where
  isKey _ he := h.isKey_of_mem he
  nodup := h.nodup

theorem Distinct.filter {es : List Entry} (h : Distinct es) (p : Entry → Bool) :
    Distinct (es.filter p) where
  isKey e he := h.isKey e (List.mem_of_mem_filter he)
  nodup := h.nodup.sublist (List.filter_sublist.map _)

namespace Listing

variable {es es' : List Entry} {e e' : Entry} {sign : TableId → Option String}
  {text text' : TableId → String} {x y : OrderKey × Entry}

/-! ## The order of keys -/

/-- The key of the first entry does not come after that of the second, where tables have these
signatures. -/
def KeysInOrderBy (text : TableId → String) (e e' : Entry) : Prop :=
  ((OrderKey.ofValue text e.1).lexOrder (OrderKey.ofValue text e'.1)).isLE

/-- The signatures that there are. -/
def known (sign : TableId → Option String) (t : TableId) : String := (sign t).getD ""

theorem eq_known {t : TableId} {s : String} (h : s ∈ sign t) : s = known sign t := by
  rw [known, Option.mem_def.1 h, Option.getD_some]

theorem mem_keyed (hx : x ∈ keyed text es) :
    x.1 = OrderKey.ofValue text x.2.1 ∧ x.2 ∈ es ∧ x.2.1.isHandle = false := by
  obtain ⟨e, he, rfl⟩ := List.mem_map.1 hx
  obtain ⟨he, hh⟩ := List.mem_filter.1 he
  exact ⟨rfl, he, by simpa using hh⟩

theorem isNaN_of_mem_keyed (hkey : ∀ e ∈ es, e.1.IsKey) (hx : x ∈ keyed text es) :
    x.1.isNaN = false := by
  obtain ⟨heq, he, -⟩ := mem_keyed hx
  rw [heq]
  exact (hkey _ he).isNaN_ofValue text

/-- Entries ranked by their keys. How level keys are decided does not matter: where NaN is among
their values, that is no order at all. -/
def byKeys (xs : List (OrderKey × Entry)) : Ranking (OrderKey × Entry) where
  lt x y := (x.1.lexOrder y.1).isLE
  le x y := (x.1.lexOrder y.1).isLE
  among x := x ∈ xs
  le_of_lt _ _ _ _ h := h
  refl _ _ := Ordering.isLE_of_eq_eq Std.ReflCmp.compare_self
  trans _ _ _ _ _ _ h h' := Std.TransCmp.isLE_trans h h'

theorem told_byKeys (hkey : ∀ e ∈ es, e.1.IsKey) (hx : x ∈ keyed text es)
    (hy : y ∈ keyed text es) : (byKeys (keyed text es)).Told x y (beforeBy text x y) := by
  have hgt : (y.1.lexOrder x.1).isLE ↔ (x.1.lexOrder y.1).isGE :=
    Std.OrientedCmp.isGE_iff_isLE.symm
  unfold beforeBy
  rw [OrderKey.order_eq_lexOrder (isNaN_of_mem_keyed hkey hx) (isNaN_of_mem_keyed hkey hy)]
  cases hlex : x.1.lexOrder y.1 with
  | lt => exact (congrArg Ordering.isLE hlex).trans rfl
  | gt => exact hgt.2 (by rw [hlex]; rfl)
  | eq =>
    dsimp only
    cases (OrderKey.ofValue text x.2.2).order (OrderKey.ofValue text y.2.2) == .lt with
    | true => exact (congrArg Ordering.isLE hlex).trans rfl
    | false => exact hgt.2 (by rw [hlex]; rfl)

/-- **Sorted entries are in the order of their keys.** -/
theorem pairwise_sortEntries (hkey : ∀ e ∈ es, e.1.IsKey) (h : sortEntries sign es = some es') :
    es'.Pairwise (KeysInOrderBy (known sign)) := by
  obtain ⟨-, hsorted⟩ := Correspondence.partially.rel_sortEntries (known sign)
    (R := byKeys (keyed (known sign) es))
    (fun _ _ _ t _ => Correspondence.partially_refl fun _ => eq_known) (fun _ => Iff.rfl)
    (fun _ _ => told_byKeys hkey) (.inr Correspondence.partially_throw)
  obtain ⟨xs, hxs, rfl⟩ := hsorted es' h
  rw [List.pairwise_map]
  refine hxs.sorted.imp_of_mem fun {x y} hx hy hle => ?_
  rw [KeysInOrderBy, ← (mem_keyed (hxs.perm.mem_iff.1 hx)).1,
    ← (mem_keyed (hxs.perm.mem_iff.1 hy)).1]
  exact hle

/-! ## Sorts that do not panic -/

/-- No NaN is among the values of different tables that are keys and have the same signature. -/
def Settles (text : TableId → String) (es : List Entry) : Prop :=
  ∀ e ∈ es, ∀ e' ∈ es, ∀ t u, e.1 = .table t → e'.1 = .table u → t ≠ u → text t = text u →
    e.2.isNaN = false

local instance : Ord OrderKey := ⟨OrderKey.lexOrder⟩

local instance : Std.TransOrd OrderKey := inferInstanceAs (Std.TransCmp OrderKey.lexOrder)

/-- What an entry is sorted by where keys are level. NaN stands for itself only. -/
def valueKey (text : TableId → String) (v : Value) : OrderKey :=
  if v.isNaN then .string "" else .ofValue text v

/-- An entry by its key, then by its value. -/
def entryOrder (text : TableId → String) : OrderKey × Entry → OrderKey × Entry → Ordering :=
  compareLex (compareOn Prod.fst) (compareOn fun x => valueKey text x.2.2)

instance (text : TableId → String) : Std.TransCmp (entryOrder text) :=
  inferInstanceAs (Std.TransCmp (compareLex _ _))

/-- Entries ranked by their keys, then by their values. -/
def byValues (text : TableId → String) (xs : List (OrderKey × Entry)) :
    Ranking (OrderKey × Entry) where
  lt x y := entryOrder text x y = .lt
  le x y := (entryOrder text x y).isLE
  among x := x ∈ xs
  le_of_lt _ _ _ _ h := Ordering.isLE_of_eq_lt h
  refl _ _ := Ordering.isLE_of_eq_eq Std.ReflCmp.compare_self
  trans _ _ _ _ _ _ h h' := Std.TransCmp.isLE_trans h h'

theorem consistent_byValues (text : TableId → String) (xs : List (OrderKey × Entry)) :
    (byValues text xs).Consistent := fun x y _ _ hlt hle => by
  have hgt : entryOrder text y x = .gt := Std.OrientedCmp.gt_of_lt hlt
  rw [byValues] at hle
  dsimp only at hle
  rw [hgt] at hle
  cases hle

/-- Entries with level keys are the same, or have tables with the same signature as keys. -/
theorem eq_or_tables_of_lexOrder (h : Distinct es) (he : e ∈ es) (he' : e' ∈ es)
    (hh : e.1.isHandle = false)
    (heq : (OrderKey.ofValue text e.1).lexOrder (OrderKey.ofValue text e'.1) = .eq) :
    e = e' ∨ ∃ t u, e.1 = .table t ∧ e'.1 = .table u ∧ t ≠ u ∧ text t = text u := by
  have hsame (hkey : e.1 = e'.1) : e = e' := List.inj_on_of_nodup_map h.nodup he he' hkey
  rcases (h.isKey e he).eq_of_lexOrder (h.isKey e' he') hh heq with hkey | ⟨ht, ht'⟩
  · exact .inl (hsame hkey)
  · obtain ⟨t, ht⟩ := Value.eq_table_of_isTable ht
    obtain ⟨u, hu⟩ := Value.eq_table_of_isTable ht'
    rw [ht, hu] at heq hsame
    by_cases htu : t = u
    · exact .inl (hsame (congrArg _ htu))
    · exact .inr ⟨t, u, ht, hu, htu, Value.IsKey.signature_eq_of_lexOrder heq⟩

/-- **Without NaN among the values of level keys no answer contradicts another.** -/
theorem told_byValues (h : Distinct es) (hs : Settles text es) (hx : x ∈ keyed text es)
    (hy : y ∈ keyed text es) : (byValues text (keyed text es)).Told x y (beforeBy text x y) := by
  obtain ⟨hkx, hmx, hhx⟩ := mem_keyed hx
  obtain ⟨hky, hmy, -⟩ := mem_keyed hy
  have hle {o : Ordering} (hlex : x.1.lexOrder y.1 = o) :
      entryOrder text x y = o.then
        ((valueKey text x.2.2).lexOrder (valueKey text y.2.2)) := by
    rw [← hlex]
    rfl
  unfold beforeBy
  rw [OrderKey.order_eq_lexOrder (isNaN_of_mem_keyed h.isKey hx) (isNaN_of_mem_keyed h.isKey hy)]
  cases hlex : x.1.lexOrder y.1 with
  | lt => exact hle hlex
  | gt => exact Ordering.isLE_of_eq_lt (Std.OrientedCmp.lt_of_gt (hle hlex))
  | eq =>
    dsimp only
    rw [hkx, hky] at hlex
    rcases eq_or_tables_of_lexOrder h hmx hmy hhx hlex with hxy | ⟨t, u, ht, hu, htu, htext⟩
    · have hself : x = y := Prod.ext (by rw [hkx, hky, hxy]) hxy
      subst hself
      rw [OrderKey.order_self]
      exact (byValues text _).refl x hx
    · have hvx : x.2.2.isNaN = false := hs _ hmx _ hmy t u ht hu htu htext
      have hvy : y.2.2.isNaN = false := hs _ hmy _ hmx u t hu ht (Ne.symm htu) htext.symm
      have horder : entryOrder text x y =
          (OrderKey.ofValue text x.2.2).order (OrderKey.ofValue text y.2.2) := by
        rw [hkx.symm, hky.symm] at hlex
        rw [hle hlex, OrderKey.order_eq_lexOrder ((Value.isNaN_ofValue text _).trans hvx)
          ((Value.isNaN_ofValue text _).trans hvy), valueKey, valueKey, hvx, hvy]
        rfl
      rw [← horder]
      cases ho : entryOrder text x y with
      | lt => exact ho
      | gt => exact Ordering.isLE_of_eq_lt (Std.OrientedCmp.lt_of_gt ho)
      | eq => exact Ordering.isLE_of_eq_eq (Std.OrientedCmp.eq_comm.1 ho)

/-- **A sort does not panic** if no NaN is among the values of level keys, nor if it is short. -/
theorem exists_sortEntries (h : Distinct es)
    (hcalm : Settles (known sign) es ∨ (es.filter fun e => !e.1.isHandle).length ≤ 20)
    (hsign : ∀ u ∈ tablesOf (es.filter fun e => !e.1.isHandle), (sign u).isSome) :
    ∃ es', sortEntries sign es = some es' := by
  have hsign (e : Entry) (he : e ∈ es) (hh : e.1.isHandle = false) (t : TableId)
      (ht : t ∈ e.1.table? ∨ t ∈ e.2.table?) :
      Correspondence.totally.rel (· = known sign t) (sign t) (sign t) := by
    have hmem : t ∈ tablesOf (es.filter fun e => !e.1.isHandle) :=
      mem_tablesOf.2 ⟨e, List.mem_filter.2 ⟨he, by rw [hh]; rfl⟩,
        ht.imp Value.eq_table_of_table? Value.eq_table_of_table?⟩
    obtain ⟨s, hs⟩ := Option.isSome_iff_exists.1 (hsign t hmem)
    exact ⟨rfl, s, hs, eq_known hs⟩
  rcases hcalm with hsettles | hfew
  · obtain ⟨-, es', hes', -⟩ := Correspondence.totally.rel_sortEntries (known sign)
      (R := byValues (known sign) (keyed (known sign) es)) hsign (fun _ => Iff.rfl)
      (fun _ _ => told_byValues h hsettles) (.inl (.inl (consistent_byValues _ _)))
    exact ⟨es', hes'⟩
  · obtain ⟨-, es', hes', -⟩ := Correspondence.totally.rel_sortEntries (known sign)
      (R := .any (· ∈ keyed (known sign) es)) hsign (fun _ => Iff.rfl)
      (fun x y _ _ => by cases beforeBy _ x y <;> trivial) (.inl (.inr hfew))
    exact ⟨es', hes'⟩

/-! ## Keys that are told apart -/

/-- The signatures tell the tables among the keys apart. -/
def Apart (text : TableId → String) (es : List Entry) : Prop :=
  ∀ e ∈ es, ∀ e' ∈ es, ∀ t u, e.1 = .table t → e'.1 = .table u → text t = text u → t = u

theorem Apart.settles (h : Apart text es) : Settles text es :=
  fun e he e' he' t u ht hu htu htext => absurd (h e he e' he' t u ht hu htext) htu

/-- One table is told apart by any signature. -/
theorem apart_of_countP_le (h : es.countP (fun e => e.1.isTable) ≤ 1) (text : TableId → String) :
    Apart text es := by
  intro e he e' he' t u ht hu _
  rw [List.countP_eq_length_filter] at h
  have hmem {e : Entry} {t : TableId} (he : e ∈ es) (ht : e.1 = .table t) :
      e ∈ es.filter fun e => e.1.isTable := List.mem_filter.2 ⟨he, by rw [ht]; rfl⟩
  have hmem₁ := hmem he ht
  have hmem₂ := hmem he' hu
  match hes : es.filter fun e => e.1.isTable with
  | [] =>
    rw [hes] at hmem₁
    cases hmem₁
  | [x] =>
    rw [hes, List.mem_singleton] at hmem₁ hmem₂
    rw [hmem₁] at ht
    rw [hmem₂, ht] at hu
    exact Value.table.inj hu
  | x :: y :: xs =>
    rw [hes] at h
    simp at h

/-- **Entries are written in one order** where signatures tell them apart, in whatever order they
came in and whatever is kept of them. -/
theorem map_eq_of_apart {β : Type} {f f' : Entry → β} {sign' : TableId → Option String}
    {fs fs' : List Entry} (h : Distinct es) (h' : Distinct es') (ha : Apart (known sign) es)
    (hfs : sortEntries sign es = some fs) (hfs' : sortEntries sign' es' = some fs')
    (hperm : ((es.filter fun e => !e.1.isHandle).map
        fun e => (OrderKey.ofValue (known sign) e.1, f e)).Perm
      ((es'.filter fun e => !e.1.isHandle).map
        fun e => (OrderKey.ofValue (known sign') e.1, f' e))) :
    fs.map f = fs'.map f' := by
  have hperm := (((perm_sortEntries hfs).map _).trans hperm).trans
    ((perm_sortEntries hfs').map _).symm
  have hsorted := pairwise_sortEntries h.isKey hfs
  have hsorted' := pairwise_sortEntries h'.isKey hfs'
  have heq : fs.map (fun e => (OrderKey.ofValue (known sign) e.1, f e)) =
      fs'.map fun e => (OrderKey.ofValue (known sign') e.1, f' e) := by
    have hle {fs : List Entry} {text : TableId → String} {g : Entry → β}
        (hsorted : fs.Pairwise (KeysInOrderBy text)) :
        (fs.map fun e => (OrderKey.ofValue text e.1, g e)).Pairwise
          fun x y => (x.1.lexOrder y.1).isLE := List.pairwise_map.2 hsorted
    refine hperm.eq_of_pairwise ?_ (hle hsorted) (hle hsorted')
    -- what is level comes from one and the same entry
    intro x y hx hy hxy hyx
    obtain ⟨e, he, rfl⟩ := List.mem_map.1 hx
    obtain ⟨e', he', rfl⟩ := List.mem_map.1 (hperm.mem_iff.2 hy)
    obtain ⟨hmem, hh⟩ := List.mem_filter.1 ((perm_sortEntries hfs).mem_iff.1 he)
    obtain ⟨hmem', -⟩ := List.mem_filter.1 ((perm_sortEntries hfs).mem_iff.1 he')
    have hlevel := Std.OrientedCmp.isLE_antisymm hxy hyx
    rcases eq_or_tables_of_lexOrder h hmem hmem' (by simpa using hh) hlevel with
      heq | ⟨t, u, ht, hu, htu, htext⟩
    · rw [heq]
    · exact absurd (ha e hmem e' hmem' t u ht hu htext) htu
  have hsnd := congrArg (List.map Prod.snd) heq
  rwa [List.map_map, List.map_map] at hsnd

/-! ## Listings -/

variable {t t' : Table} {l l' : Listing}

/-- **A table is listed without a panic** if no NaN is among the values of level keys, or few
entries are sorted. -/
theorem exists_ofTable (h : t.WellFormed)
    (hcalm : Settles (known sign) (t.entries.filter fun e => !inRun t e.1) ∨
      ((t.entries.filter fun e => !inRun t e.1).filter fun e => !e.1.isHandle).length ≤ 20)
    (hsign : ∀ u ∈ tablesOf (t.entries.filter fun e => !e.1.isHandle), (sign u).isSome) :
    ∃ l, ofTable sign t = some l := by
  obtain ⟨fields, hfields⟩ := exists_sortEntries (h.distinct.filter _) hcalm fun u hu => by
    obtain ⟨e, he, hu⟩ := mem_tablesOf.1 hu
    obtain ⟨he, hh⟩ := List.mem_filter.1 he
    exact hsign u (mem_tablesOf.2 ⟨e, List.mem_filter.2 ⟨List.mem_of_mem_filter he, hh⟩, hu⟩)
  exact ⟨_, Option.bind_eq_some_iff.2 ⟨fields, hfields, rfl⟩⟩

/-- The run is a matter of which entries there are. -/
theorem run_eq_of_perm (h : t.WellFormed) (h' : t'.WellFormed) (hperm : t.entries.Perm t'.entries) :
    t.run = t'.run := by
  have hkeys (k : Value) : k ∈ t.keys ↔ k ∈ t'.keys := (hperm.map Prod.fst).mem_iff
  refine Nat.le_antisymm (h'.le_run_iff.2 fun i hpos hi => ?_)
    (h.le_run_iff.2 fun i hpos hi => ?_)
  · exact (hkeys _).1 (h.present i hpos hi)
  · exact (hkeys _).2 (h'.present i hpos hi)

/-- **A listing is a matter of which entries there are**, where signatures tell them apart. -/
theorem ofTable_eq_of_perm {sign' : TableId → Option String} (h : t.WellFormed)
    (h' : t'.WellFormed) (hperm : t.entries.Perm t'.entries) (ha : Apart (known sign) t.entries)
    (htext : ∀ e ∈ t.entries, ∀ u ∈ e.1.table?, known sign' u = known sign u)
    (hl : ofTable sign t = some l) (hl' : ofTable sign' t' = some l') : l = l' := by
  obtain ⟨hitems, hfields⟩ := ofTable_eq_some hl
  obtain ⟨hitems', hfields'⟩ := ofTable_eq_some hl'
  have hrun := run_eq_of_perm h h' hperm
  have hitems : l.items = l'.items := by
    rw [hitems, hitems', ← hrun]
    refine List.map_congr_left fun i hi => ?_
    obtain ⟨e, he, hkey⟩ := List.mem_map.1 (h.present (i + 1) (by omega) (List.mem_range.1 hi))
    rw [← hkey, h.get_of_mem he, h'.get_of_mem (hperm.mem_iff.1 he)]
  have hin : (fun e : Entry => !inRun t' e.1) = fun e => !inRun t e.1 := by
    unfold inRun
    rw [hrun]
  have hmem {e : Entry} (he : e ∈ t.entries.filter fun e => !inRun t e.1) : e ∈ t.entries :=
    List.mem_of_mem_filter he
  have hfields : l.fields.map id = l'.fields.map id := by
    refine map_eq_of_apart (h.distinct.filter _) (h'.distinct.filter _)
      (fun e he e' he' => ha e (hmem he) e' (hmem he')) hfields hfields' ?_
    rw [hin]
    have hsorted := (hperm.filter fun e => !inRun t e.1).filter fun e => !e.1.isHandle
    refine .trans (.of_eq (List.map_congr_left fun e he => ?_)) (hsorted.map _)
    have hkey : OrderKey.ofValue (known sign) e.1 = OrderKey.ofValue (known sign') e.1 := by
      cases hv : e.1 with
      | table u =>
        exact congrArg (OrderKey.other .table)
          (htext e (hmem (List.mem_of_mem_filter he)) u (by rw [hv]; rfl)).symm
      | _ => rfl
    rw [hkey]
  rw [List.map_id, List.map_id] at hfields
  cases l
  cases l'
  exact congrArg₂ Listing.mk hitems hfields

end Listing

end LuaGraph
