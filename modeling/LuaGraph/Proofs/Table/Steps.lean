import LuaGraph.Proofs.Graph.WellFormed
import Mathlib.Data.List.Infix

/-!
# Whatever is done to a table

A table is made from values (`from_sequence`), assigned to (`set`) and appended to (`push`), in any
order. Conventions:

* `make` stands for a new table in the place of the old one.
* An assignment to a value that is no key fails, and the table stays as it is.
* The places of a table can be counted as long as it has fewer than `2 ^ 63 - 1` entries, which is
  more than fit into a memory. A run is asked to stay below that (`Roomy`).

Results: `wellFormed_after`, and **`length_after`**: the length (`len`) is that of the sequence run,
and what is appended comes right after it.
-/

namespace LuaGraph

namespace Value

/-- What is the same as a place has it for its canonical form. -/
theorem canonical_of_same_index {k : Value} {i : Nat} (h : k.same (.index i) = true) :
    k.canonical = .index i := by
  cases k with
  | number n =>
    have h : n.same (.integer (Int64.ofNat i)) = true := h
    unfold Number.same at h
    rw [Number.canonical_integer] at h
    rw [canonical]
    split at h
    · rename_i j j' hj hj'
      cases hj'
      rw [hj, eq_of_beq h]
      rfl
    · rename_i hj
      cases hj
    · cases h
  | _ => cases h

theorem same_index (i : Nat) : (index i).same (.index i) = true :=
  beq_self_eq_true (Int64.ofNat i)

end Value

namespace Table

/-- Something that is done to a table. -/
inductive Step
  | make (vs : List Value)
  | set (k v : Value)
  | push (v : Value)

/-- The table after a step. -/
def step (t : Table) : Step → Table
  | .make vs => ofSequence vs
  | .set k v => (t.set k v).toOption.getD t
  | .push v => t.push v

/-- The table after some steps. -/
def after (steps : List Step) : Table := steps.foldl step empty

/-- At no moment the table has too many entries for its places to be counted. -/
def Roomy (steps : List Step) : Prop := ∀ p ∈ steps.inits, (after p).Countable

instance (steps : List Step) : Decidable (Roomy steps) :=
  inferInstanceAs (Decidable (∀ p ∈ steps.inits, _))

variable {t : Table} {k v : Value} {steps : List Step} {s : Step}

theorem after_concat (steps : List Step) (s : Step) :
    after (steps ++ [s]) = (after steps).step s := List.foldl_concat ..

theorem step_set_ok {k' : Value} (h : k.toKey = .ok k') (v : Value) :
    t.step (.set k v) = t.write k' v := by
  rw [step, set, h]
  rfl

/-- A step that fails changes nothing. -/
theorem step_set_error {f : KeyFault} (h : t.set k v = .error f) : t.step (.set k v) = t := by
  rw [step, h]
  rfl

/-! ## Sequences -/

/-- Stores a value at a place, unless it is nil: what a new table is made of. -/
def place (t : Table) (p : Value × Nat) : Table :=
  if p.1 = .nil then t else t.insert (.index p.2) p.1

theorem size_insert_le (t : Table) (k v : Value) : t.size ≤ (t.insert k v).size := by
  have hkeys := congrArg List.length (keys_insert t k v)
  have hlength (t : Table) : t.keys.length = t.size := List.length_map ..
  rw [hlength] at hkeys
  rw [hkeys]
  split
  · exact Nat.le_of_eq (hlength t).symm
  · rw [List.length_append, hlength]
    exact Nat.le_add_right ..

theorem size_place_le (t : Table) (p : Value × Nat) : t.size ≤ (t.place p).size := by
  unfold place
  split
  · exact Nat.le_refl _
  · exact size_insert_le t _ _

theorem size_foldl_place_le (t : Table) (ps : List (Value × Nat)) :
    t.size ≤ (ps.foldl place t).size := by
  induction ps generalizing t with
  | nil => exact Nat.le_refl _
  | cons p ps ih => exact Nat.le_trans (size_place_le t p) (ih _)

namespace WellFormed

theorem foldl_place (h : t.WellFormed) {ps : List (Value × Nat)}
    (hc : (ps.foldl place t).Countable) : (ps.foldl place t).WellFormed := by
  induction ps generalizing t with
  | nil => exact h
  | cons p ps ih =>
    refine ih ?_ hc
    have hle := size_foldl_place_le (t.place p) ps
    have hc : (t.place p).size + 1 < 2 ^ 63 := Nat.lt_of_le_of_lt (Nat.succ_le_succ hle) hc
    unfold place at hc ⊢
    split
    · exact h
    · rename_i hv
      rw [if_neg hv] at hc
      exact h.insert (Value.isKey_index _) hv hc

theorem push (h : t.WellFormed) (hc : (t.push v).Countable) : (t.push v).WellFormed := by
  unfold Table.push at hc ⊢
  split
  · exact h
  · rename_i hv
    rw [if_neg hv] at hc
    exact h.insert (Value.isKey_index _) hv hc

/-- **A step keeps a table well-formed.** -/
theorem step (h : t.WellFormed) (hc : t.Countable) (hc' : (t.step s).Countable) :
    (t.step s).WellFormed := by
  cases s with
  | make vs => exact wellFormed_empty.foldl_place hc'
  | push v => exact h.push hc'
  | set k v =>
    cases hkey : k.toKey with
    | error f =>
      rw [step_set_error (set_eq_error_iff.2 hkey)]
      exact h
    | ok k' =>
      rw [step_set_ok hkey] at hc' ⊢
      exact h.write (Value.toKey_eq_ok hkey).2 hc hc'

end WellFormed

/-! ## Runs -/

theorem Roomy.concat (h : Roomy (steps ++ [s])) :
    Roomy steps ∧ (after steps).Countable ∧ ((after steps).step s).Countable := by
  refine ⟨fun p hp => h p ?_, h steps ?_, ?_⟩
  · exact (List.mem_inits ..).2 (((List.mem_inits ..).1 hp).trans (List.prefix_append ..))
  · exact (List.mem_inits ..).2 (List.prefix_append ..)
  · rw [← after_concat]
    exact h _ ((List.mem_inits ..).2 (List.prefix_refl _))

/-- **Whatever is done, a table stays well-formed.** -/
theorem wellFormed_after (hroom : Roomy steps) : (after steps).WellFormed := by
  induction steps using List.reverseRecOn with
  | nil => exact wellFormed_empty
  | append_singleton steps s ih =>
    obtain ⟨hroom, hc, hc'⟩ := hroom.concat
    rw [after_concat]
    exact (ih hroom).step hc hc'

/-- A key is found by its canonical form. -/
theorem contains_canonical (t : Table) (k : Value) : t.contains k.canonical = t.contains k := by
  rw [contains, get?, Value.canonical_canonical]
  rfl

theorem contains_of_same_index {i : Nat} (t : Table) (h : k.same (.index i) = true) :
    t.contains k = decide (.index i ∈ t.keys) := by
  rw [← contains_canonical, Value.canonical_of_same_index h, contains_eq (Value.isKey_index i)]

/-- What is appended comes last, under a new key. -/
theorem entries_push (h : Value.index (t.run + 1) ∉ t.keys) (hv : v ≠ .nil) :
    (t.push v).entries = t.entries ++ [(.index (t.run + 1), v)] := by
  rw [push, if_neg hv]
  exact put_of_notMem h v

/-- **The length is that of the sequence run.** After any steps, up to it all places are there, in
whatever form they are asked for, the next one is not, and a value that is appended gets just that
place and a new entry. -/
theorem length_after (steps : List Step) (hroom : Roomy steps) :
    (∀ n, n ≤ (after steps).length ↔
      ∀ i, 1 ≤ i → i ≤ n → ∀ k, k.same (.index i) = true → (after steps).contains k = true) ∧
    (∀ k, k.same (.index ((after steps).length + 1)) = true → (after steps).contains k = false) ∧
    ∀ v, v ≠ .nil →
      ((after steps).push v).entries =
        (after steps).entries ++ [(.index ((after steps).length + 1), v)] ∧
      ((after steps).push v).get (.index ((after steps).length + 1)) = v := by
  have h := wellFormed_after hroom
  generalize after steps = t at h
  refine ⟨fun n => ?_, fun k hk => ?_, fun v hv => ?_⟩
  · refine h.le_run_iff.trans ⟨fun hall i hpos hi k hk => ?_, fun hall i hpos hi => ?_⟩
    · rw [contains_of_same_index t hk]
      exact decide_eq_true (hall i hpos hi)
    · have hplace := hall i hpos hi _ (Value.same_index i)
      rw [contains_of_same_index t (Value.same_index i)] at hplace
      exact of_decide_eq_true hplace
  · rw [contains_of_same_index t hk]
    exact decide_eq_false h.absent
  · have hentries := entries_push h.absent hv
    refine ⟨hentries, ?_⟩
    have hmem : ((.index (t.run + 1), v) : Entry) ∈ (t.push v).entries := by
      rw [hentries]
      exact List.mem_append_right _ (List.mem_singleton_self _)
    have hnodup : ((t.push v).entries.map Prod.fst).Nodup := by
      rw [push, if_neg hv]
      exact nodup_keys_insert h.nodup
    rw [get, get?]
    exact congrArg (·.getD .nil) (lookup_of_mem hnodup hmem)

/-- Steps that leave a hole, fill it under a float, fail, cut the run off and close it again. -/
def patched : List Step :=
  [.make [.string "a", .nil, .string "c"],
    .set (.number (.float (Float.ofBits 0x4000000000000000))) (.string "b"),
    .set .nil (.boolean true), .set (.index 1) .nil, .push (.string "d")]

theorem length_after_patched :
    Roomy patched ∧ (after patched).length = 3 ∧
    (∀ i, 1 ≤ i → i ≤ 3 → ∀ k, k.same (.index i) = true → (after patched).contains k = true) ∧
    ((after patched).push (.string "e")).entries =
      [(.index 3, .string "c"), (.index 2, .string "b"), (.index 1, .string "d"),
        (.index 4, .string "e")] := by
  have hroom : Roomy patched := by decide +kernel
  have hlength : (after patched).length = 3 := by decide +kernel
  have hentries : (after patched).entries =
      [(.index 3, .string "c"), (.index 2, .string "b"), (.index 1, .string "d")] := by
    decide +kernel
  obtain ⟨hrun, -, hpush⟩ := length_after patched hroom
  refine ⟨hroom, hlength, (hrun 3).1 (Nat.le_of_eq hlength.symm), ?_⟩
  rw [(hpush (.string "e") (by decide)).1, hentries, hlength]
  rfl

end Table

end LuaGraph
