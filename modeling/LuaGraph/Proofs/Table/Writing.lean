import LuaGraph.Proofs.Alike.Symmetry

/-!
# Entries after an assignment

An assignment (`Slots::insert`, `Slots::remove`) puts a new key last, changes the value of one that
is there in its place, and leaves the other entries in their order. Keys are compared in canonical
form, which is raw equality where each identity of a handle has one label (`LabelledBy`).

Results: `Value.same_iff`, `put_of_mem`, `entries_erase` and `get_write`.
-/

namespace LuaGraph

/-! ## Raw equality and canonical forms -/

namespace Value

/-- A handle has the label that belongs to its identity. -/
def LabelledBy (labels : Nat → String) : Value → Prop
  | .function h => h.label = labels h.identity
  | .userdata h => h.label = labels h.identity
  | _ => True

variable {labels : Nat → String} {k k' l : Value}

theorem LabelledBy.canonical (h : k.LabelledBy labels) : k.canonical.LabelledBy labels := by
  cases k <;> exact h

theorem same_canonical_left (k l : Value) : k.canonical.same l = k.same l := by
  cases k with
  | number m =>
    cases l with
    | number n =>
      show m.canonical.same n = m.same n
      unfold Number.same
      rw [m.canonical_canonical]
    | _ => rfl
  | _ => rfl

theorem same_canonical_right (k l : Value) : k.same l.canonical = k.same l := by
  cases l with
  | number n =>
    cases k with
    | number m =>
      show m.same n.canonical = m.same n
      unfold Number.same
      rw [n.canonical_canonical]
    | _ => rfl
  | _ => rfl

/-- Handles that are the same are equal. -/
theorem LabelledBy.eq_of_same (hk : k.LabelledBy labels) (hl : l.LabelledBy labels)
    (hh : k.isHandle = true) (h : k.same l = true) : k = l := by
  have heq {a b : Handle} (ha : a.label = labels a.identity) (hb : b.label = labels b.identity)
      (h : (a.identity == b.identity) = true) : a = b := by
    cases a
    cases b
    simp_all
  cases k with
  | function a =>
    cases l with
    | function b => exact congrArg function (heq hk hl h)
    | _ => cases h
  | userdata a =>
    cases l with
    | userdata b => exact congrArg userdata (heq hk hl h)
    | _ => cases h
  | _ => cases hh

/-- What is the same as a key is one in canonical form. -/
theorem IsKey.of_same (hk : k.IsKey) (h : k.same l = true) : l.canonical.IsKey := by
  cases l with
  | nil => cases k <;> first | exact hk | cases h
  | number n =>
    cases k with
    | number m =>
      have hn : n.isNaN = false := Number.isNaN_of_same (Number.same_symm h)
      show (number n.canonical).IsKey
      rw [IsKey, toKey, Number.isNaN_canonical hn, if_neg Bool.false_ne_true,
        n.canonical_canonical]
    | _ => cases h
  | _ => rfl

/-- **Raw equality with a key is equality of canonical forms.** -/
theorem same_iff (hkey : k.canonical.IsKey) (hk : k.LabelledBy labels)
    (hl : l.LabelledBy labels) : k.same l = true ↔ k.canonical = l.canonical := by
  rw [← same_canonical_left, ← same_canonical_right]
  constructor
  · intro h
    cases hh : k.canonical.isHandle with
    | true => exact hk.canonical.eq_of_same hl.canonical hh h
    | false =>
      rw [same_canonical_right] at h
      exact hkey.eq_of_same (hkey.of_same h) hh (by rwa [same_canonical_right])
  · intro h
    rw [← h]
    exact hkey.same_self

end Value

namespace Table

variable {t : Table} {k : Value} {es : List Entry}

/-! ## Entries -/

/-- Below an entry under another key, what is found under a key is what the rest has there. -/
theorem lookup_cons_of_ne {e : Entry} {es' : List Entry} {x : Option Value} (he : e.1 ≠ k)
    (l : Value) (h : es'.lookup l = if l = k then x else es.lookup l) :
    (e :: es').lookup l = if l = k then x else (e :: es).lookup l := by
  rw [List.lookup_cons, List.lookup_cons, h]
  by_cases hl : l = e.1
  · have hlk : l ≠ k := fun heq => he (hl.symm.trans heq)
    rw [beq_iff_eq.2 hl]
    exact (if_neg hlk).symm
  · rw [beq_false_of_ne hl]

theorem lookup_put (k v : Value) (es : List Entry) (l : Value) :
    (put k v es).lookup l = if l = k then some v else es.lookup l := by
  induction es with
  | nil =>
    rw [put, List.lookup_cons]
    by_cases hl : l = k
    · rw [if_pos hl, beq_iff_eq.2 hl]
    · rw [if_neg hl, beq_false_of_ne hl]
  | cons e es ih =>
    rw [put]
    by_cases he : e.1 = k
    · rw [if_pos he, List.lookup_cons, List.lookup_cons, he]
      by_cases hl : l = k
      · rw [if_pos hl, beq_iff_eq.2 hl]
      · rw [if_neg hl, beq_false_of_ne hl]
    · rw [if_neg he]
      exact lookup_cons_of_ne he l ih

/-- Assigning to a key that is there changes its value in its place. -/
theorem put_of_mem (hn : (es.map Prod.fst).Nodup) (hk : k ∈ es.map Prod.fst) (v : Value) :
    put k v es = es.map fun e => if e.1 = k then (k, v) else e := by
  induction es with
  | nil => cases hk
  | cons e es ih =>
    rw [List.map_cons, List.nodup_cons] at hn
    rw [put, List.map_cons]
    by_cases he : e.1 = k
    · have hrest : es.map (fun e => if e.1 = k then (k, v) else e) = es.map id := by
        refine List.map_congr_left fun e' he' => if_neg fun heq => hn.1 ?_
        rw [he, ← heq]
        exact List.mem_map_of_mem he'
      rw [if_pos he, if_pos he, hrest, List.map_id]
    · rw [if_neg he, if_neg he,
        ih hn.2 ((List.mem_cons.1 hk).resolve_left fun heq => he heq.symm)]

/-- Removing a key leaves the entries under others, in their order. -/
theorem entries_erase (hk : k.IsKey) (hn : t.keys.Nodup) :
    (t.erase k).entries = t.entries.filter fun e => e.1 ≠ k := by
  have hfilter (es : List Entry) (hn : (es.map Prod.fst).Nodup) :
      es.eraseP (fun e => e.1 = k) = es.filter fun e => e.1 ≠ k := by
    induction es with
    | nil => rfl
    | cons e es ih =>
      rw [List.map_cons, List.nodup_cons] at hn
      by_cases he : e.1 = k
      · rw [List.eraseP_cons_of_pos (by simpa using he),
          List.filter_cons_of_neg (by simpa using he), List.filter_eq_self.2]
        intro e' he'
        refine decide_eq_true fun heq => hn.1 ?_
        rw [he, ← heq]
        exact List.mem_map_of_mem he'
      · rw [List.eraseP_cons_of_neg (by simpa using he),
          List.filter_cons_of_pos (by simpa using he), ih hn.2]
  by_cases hmem : k ∈ t.keys
  · rw [erase, contains_eq hk, decide_eq_true hmem, if_pos rfl]
    exact hfilter t.entries hn
  · rw [erase_of_notMem hk hmem, List.filter_eq_self.2]
    intro e he
    exact decide_eq_true fun heq => hmem (heq ▸ List.mem_map_of_mem he)

theorem lookup_filter (es : List Entry) (k l : Value) :
    (es.filter fun e => e.1 ≠ k).lookup l = if l = k then none else es.lookup l := by
  induction es with
  | nil => simp
  | cons e es ih =>
    by_cases he : e.1 = k
    · rw [List.filter_cons_of_neg (by simpa using he), ih, List.lookup_cons]
      by_cases hl : l = k
      · rw [if_pos hl, if_pos hl]
      · rw [if_neg hl, if_neg hl, beq_false_of_ne (he ▸ hl)]
    · rw [List.filter_cons_of_pos (by simpa using he)]
      exact lookup_cons_of_ne he l ih

/-- **After an assignment** a key has its value, and all others have theirs. -/
theorem get_write (hk : k.IsKey) (hn : t.keys.Nodup) (v l : Value) :
    (t.write k v).get l = if l.canonical = k then v else t.get l := by
  unfold write get get?
  split
  · rename_i hv
    rw [entries_erase hk hn, lookup_filter, hv]
    split <;> rfl
  · have hlookup := lookup_put k v t.entries l.canonical
    show ((put k v t.entries).lookup l.canonical).getD .nil = _
    rw [hlookup]
    split <;> rfl

end Table

end LuaGraph
