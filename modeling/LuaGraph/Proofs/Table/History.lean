import LuaGraph.Proofs.Table.Steps
import LuaGraph.Proofs.Table.Writing

/-!
# Tables as what was assigned to them

A table is an ordered map with raw-equal keys: what it holds, and in which order, can be read off
the assignments (`set`) that were made to it. Conventions:

* The *history* of a table lists these assignments. A value that is appended is assigned to the
  place after the run, and a table that is made anew begins with its values.
* A key *arrives* with an assignment that gives it a value when it has none. It leaves when it is
  assigned nil, and is at its latest arrival for as long as it stays.

Results: a step makes its assignments (`Lists.step`), and **`reflects_history`**: after any steps a
table holds what was assigned last, in the order in which its keys arrived.
-/

namespace LuaGraph

namespace Table

variable {labels : Nat → String} {t : Table} {k l v : Value} {h es : List Entry} {a e : Entry}
  {n : Nat}

/-! ## Histories -/

/-- The value that was assigned last to what is the same as a key, nil if there is none. -/
def lastValue (h : List Entry) (k : Value) : Value :=
  ((h.reverse.find? fun a => a.1.same k).map Prod.snd).getD .nil

/-- The key arrived with the assignment number `n` and has been there since. -/
structure Arrives (h : List Entry) (n : Nat) (k : Value) : Prop where
  assigned : ∃ v, h[n]? = some (k, v)
  absent : lastValue (h.take n) k = .nil
  present : ∀ m, n < m → m ≤ h.length → lastValue (h.take m) k ≠ .nil

/-- The assignments that make a table of values. -/
def making (vs : List Value) : List Entry :=
  ((vs.zipIdx 1).filter fun p => p.1 ≠ .nil).map fun p => (.index p.2, p.1)

/-- The history of a table after a step, given its history before. -/
def record (t : Table) (h : List Entry) : Step → List Entry
  | .make vs => making vs
  | .set k v => if k.toKey.isOk then h ++ [(k, v)] else h
  | .push v => if v = .nil then h else h ++ [(.index (t.length + 1), v)]

/-- The assignments that were made by some steps. -/
def history (steps : List Step) : List Entry :=
  (steps.foldl (fun (t, h) s => (step t s, record t h s)) (empty, [])).2

theorem foldl_record (steps : List Step) :
    steps.foldl (fun (t, h) s => (step t s, record t h s)) (empty, []) =
      (after steps, history steps) := by
  refine Prod.ext ?_ rfl
  induction steps using List.reverseRecOn with
  | nil => rfl
  | append_singleton steps s ih =>
    rw [List.foldl_concat, after_concat]
    exact congrArg (step · s) ih

theorem history_concat (steps : List Step) (s : Step) :
    history (steps ++ [s]) = record (after steps) (history steps) s := by
  rw [history, List.foldl_concat, foldl_record]

theorem lastValue_concat (h : List Entry) (a : Entry) (k : Value) :
    lastValue (h ++ [a]) k = if a.1.same k then a.2 else lastValue h k := by
  unfold lastValue
  rw [List.reverse_concat, List.find?_cons]
  cases a.1.same k <;> rfl

/-- **One more assignment**: the keys that arrived stay as long as they have a value, and its own
arrives if it had none. -/
theorem arrives_concat : Arrives (h ++ [a]) n k ↔
    (Arrives h n k ∨ n = h.length ∧ k = a.1 ∧ lastValue h k = .nil) ∧
      lastValue (h ++ [a]) k ≠ .nil := by
  have htake {m : Nat} (hm : m ≤ h.length) : (h ++ [a]).take m = h.take m :=
    List.take_append_of_le_length hm
  have hall : (h ++ [a]).take (h.length + 1) = h ++ [a] :=
    List.take_of_length_le (Nat.le_of_eq List.length_append)
  have hlength : (h ++ [a]).length = h.length + 1 := List.length_append
  constructor
  · rintro ⟨⟨v, hv⟩, habsent, hpresent⟩
    rw [hlength] at hpresent
    have hn : n ≤ h.length := by
      have := (List.getElem?_eq_some_iff.1 hv).1
      omega
    rw [htake hn] at habsent
    refine ⟨?_, hall ▸ hpresent (h.length + 1) (by omega) (Nat.le_refl _)⟩
    rcases Nat.lt_or_eq_of_le hn with hlt | rfl
    · refine .inl ⟨⟨v, by rwa [List.getElem?_append_left hlt] at hv⟩, habsent, fun m hm hle => ?_⟩
      rw [← htake hle]
      exact hpresent m hm (Nat.le_succ_of_le hle)
    · rw [List.getElem?_concat_length] at hv
      rw [List.take_length] at habsent
      exact .inr ⟨rfl, (congrArg Prod.fst (Option.some.inj hv)).symm, habsent⟩
  · rintro ⟨harrived | ⟨rfl, rfl, habsent⟩, hvalue⟩
    · obtain ⟨⟨v, hv⟩, habsent, hpresent⟩ := harrived
      have hlt := (List.getElem?_eq_some_iff.1 hv).1
      refine ⟨⟨v, by rwa [List.getElem?_append_left hlt]⟩, ?_, fun m hm hle => ?_⟩
      · rwa [htake (Nat.le_of_lt hlt)]
      · rw [hlength] at hle
        rcases Nat.lt_or_eq_of_le hle with hle | rfl
        · rw [htake (Nat.le_of_lt_succ hle)]
          exact hpresent m hm (Nat.le_of_lt_succ hle)
        · rwa [hall]
    · refine ⟨⟨a.2, List.getElem?_concat_length⟩, ?_, fun m hm hle => ?_⟩
      · rwa [htake (Nat.le_refl _), List.take_length]
      · rw [hlength] at hle
        obtain rfl : m = h.length + 1 := by omega
        rwa [hall]

/-- A key that arrived has a value. -/
theorem Arrives.lastValue_ne (harrives : Arrives h n k) : lastValue h k ≠ .nil := by
  obtain ⟨v, hv⟩ := harrives.assigned
  have hvalue := harrives.present h.length (List.getElem?_eq_some_iff.1 hv).1 (Nat.le_refl _)
  rwa [List.take_length] at hvalue

theorem Arrives.mem (harrives : Arrives h n k) : n < h.length ∧ ∃ v, (k, v) ∈ h := by
  obtain ⟨v, hv⟩ := harrives.assigned
  exact ⟨(List.getElem?_eq_some_iff.1 hv).1, v, List.mem_of_getElem? hv⟩

/-! ## Assignments one by one -/

/-- A key that can be assigned to, with the label that belongs to it. -/
def Assignable (labels : Nat → String) (a : Entry) : Prop :=
  a.1.canonical.IsKey ∧ a.1.LabelledBy labels

/-- Arrivals of keys, in their order, that account for the entries of a table. -/
structure Arrivals (t : Table) (h : List Entry) (ps : List (Nat × Value)) : Prop where
  sorted : ps.Pairwise fun p q => p.1 < q.1
  mem_iff : ∀ n k, (n, k) ∈ ps ↔ Arrives h n k
  entries : t.entries = ps.map fun p => (p.2.canonical, lastValue h p.2)

/-- The entries of a table are the keys of a history in the order of their arrival, each with the
value that was assigned to it last. -/
structure Lists (labels : Nat → String) (t : Table) (h : List Entry) : Prop where
  assignable : ∀ a ∈ h, Assignable labels a
  nodup : t.keys.Nodup
  get : ∀ k, k.LabelledBy labels → t.get k = lastValue h k
  arrivals : ∃ ps, Arrivals t h ps

/-- The arrivals after one more assignment, given those before. -/
def arrivalsWith (h : List Entry) (a : Entry) (ps : List (Nat × Value)) : List (Nat × Value) :=
  (ps ++ if lastValue h a.1 = .nil then [(h.length, a.1)] else []).filter fun p =>
    lastValue (h ++ [a]) p.2 ≠ .nil

theorem mem_arrivalsWith {ps : List (Nat × Value)} (hps : ∀ n k, (n, k) ∈ ps ↔ Arrives h n k) :
    (n, k) ∈ arrivalsWith h a ps ↔ Arrives (h ++ [a]) n k := by
  have hnew : ((n, k) ∈ if lastValue h a.1 = .nil then [(h.length, a.1)] else []) ↔
      n = h.length ∧ k = a.1 ∧ lastValue h k = .nil := by
    by_cases habsent : lastValue h a.1 = .nil
    · rw [if_pos habsent, List.mem_singleton, Prod.mk.injEq]
      exact and_congr_right fun _ => ⟨fun hk => ⟨hk, hk ▸ habsent⟩, fun hk => hk.1⟩
    · rw [if_neg habsent]
      exact ⟨nofun, fun ⟨_, hk, hnil⟩ => (habsent (hk ▸ hnil)).elim⟩
  rw [arrivalsWith, List.mem_filter, List.mem_append, hps, hnew, arrives_concat,
    decide_eq_true_iff]

theorem sorted_arrivalsWith {ps : List (Nat × Value)} (hps : Arrivals t h ps) :
    (arrivalsWith h a ps).Pairwise fun p q => p.1 < q.1 := by
  refine (List.pairwise_append.2 ⟨hps.sorted, ?_, fun p hp q hq => ?_⟩).filter _
  · split
    · exact List.pairwise_singleton ..
    · exact .nil
  · split at hq
    · rw [List.mem_singleton.1 hq]
      exact ((hps.mem_iff p.1 p.2).1 hp).mem.1
    · cases hq

/-- The value of a key after one more assignment. -/
theorem lastValue_concat_of_labelled (ha : Assignable labels a) (hk : k.LabelledBy labels) :
    lastValue (h ++ [a]) k = if k.canonical = a.1.canonical then a.2 else lastValue h k := by
  rw [lastValue_concat]
  refine if_congr ?_ rfl rfl
  rw [Value.same_iff ha.1 ha.2 hk]
  exact eq_comm

namespace Lists

theorem empty (labels : Nat → String) : Lists labels empty [] where
  assignable := List.forall_mem_nil _
  nodup := .nil
  get _ _ := rfl
  arrivals := ⟨[], .nil, fun _ _ => ⟨nofun, fun ⟨⟨_, hv⟩, _, _⟩ => nomatch hv⟩, rfl⟩

variable {ps : List (Nat × Value)} {p : Nat × Value} (ht : Lists labels t h)
  (ha : Assignable labels a)
include ht

/-- What arrived has the label that belongs to it, and a value. -/
theorem of_mem_arrivals (hps : Arrivals t h ps) (hp : p ∈ ps) :
    p.2.LabelledBy labels ∧ lastValue h p.2 ≠ .nil := by
  have harrives := (hps.mem_iff p.1 p.2).1 hp
  obtain ⟨-, v, hv⟩ := harrives.mem
  exact ⟨(ht.assignable _ hv).2, harrives.lastValue_ne⟩

include ha

/-- A key is there if it has a value. -/
theorem mem_keys_iff : a.1.canonical ∈ t.keys ↔ lastValue h a.1 ≠ .nil := by
  rw [← ht.get a.1 ha.2]
  constructor
  · intro hmem
    obtain ⟨ps, hps⟩ := ht.arrivals
    rw [keys, hps.entries, List.map_map] at hmem
    obtain ⟨p, hp, hkey⟩ := List.mem_map.1 hmem
    obtain ⟨hlabel, hvalue⟩ := ht.of_mem_arrivals hps hp
    rw [Table.get, get?, ← show p.2.canonical = a.1.canonical from hkey, ← get?, ← Table.get,
      ht.get p.2 hlabel]
    exact hvalue
  · intro hvalue
    refine isSome_lookup.1 ?_
    unfold Table.get get? at hvalue
    cases hlookup : t.entries.lookup a.1.canonical with
    | none =>
      rw [hlookup] at hvalue
      exact (hvalue rfl).elim
    | some v => rfl

/-- A key that is assigned nil leaves. -/
theorem entries_leave (hps : Arrivals t h ps) (hv : a.2 = .nil) :
    (t.write a.1.canonical a.2).entries =
      (arrivalsWith h a ps).map fun p => (p.2.canonical, lastValue (h ++ [a]) p.2) := by
  have hlast (k : Value) (hk : k.LabelledBy labels) := lastValue_concat_of_labelled (h := h) ha hk
  have hstay (p : Nat × Value) (hp : p ∈ ps) :
      lastValue (h ++ [a]) p.2 ≠ .nil ↔ p.2.canonical ≠ a.1.canonical := by
    obtain ⟨hlabel, hvalue⟩ := ht.of_mem_arrivals hps hp
    rw [hlast p.2 hlabel, hv]
    split <;> simp_all
  have hwith : arrivalsWith h a ps = ps.filter fun p => p.2.canonical ≠ a.1.canonical := by
    have hnew : (if lastValue h a.1 = .nil then [(h.length, a.1)] else []).filter
        (fun p => lastValue (h ++ [a]) p.2 ≠ .nil) = [] := by
      refine List.filter_eq_nil_iff.2 fun p hp => ?_
      split at hp
      · rw [List.mem_singleton.1 hp, hlast a.1 ha.2, if_pos rfl, hv]
        simp
      · cases hp
    rw [arrivalsWith, List.filter_append, hnew, List.append_nil]
    exact List.filter_congr fun p hp => decide_eq_decide.2 (hstay p hp)
  rw [write, if_pos hv, entries_erase ha.1 ht.nodup, hps.entries, hwith, List.filter_map]
  refine List.map_congr_left fun p hp => ?_
  obtain ⟨hp, hne⟩ := List.mem_filter.1 hp
  rw [hlast p.2 (ht.of_mem_arrivals hps hp).1, if_neg (of_decide_eq_true hne)]

/-- A key that is there gets its value in its place, and one that is not comes last. -/
theorem entries_come (hps : Arrivals t h ps) (hv : a.2 ≠ .nil) :
    (t.write a.1.canonical a.2).entries =
      (arrivalsWith h a ps).map fun p => (p.2.canonical, lastValue (h ++ [a]) p.2) := by
  have hlast (k : Value) (hk : k.LabelledBy labels) := lastValue_concat_of_labelled (h := h) ha hk
  have hwith : arrivalsWith h a ps =
      ps ++ if lastValue h a.1 = .nil then [(h.length, a.1)] else [] := by
    refine List.filter_eq_self.2 fun p hp => decide_eq_true ?_
    rcases List.mem_append.1 hp with hp | hp
    · obtain ⟨hlabel, hvalue⟩ := ht.of_mem_arrivals hps hp
      rw [hlast p.2 hlabel]
      split <;> assumption
    · split at hp
      · rw [List.mem_singleton.1 hp, hlast a.1 ha.2, if_pos rfl]
        exact hv
      · cases hp
  rw [write, if_neg hv, hwith]
  show put a.1.canonical a.2 t.entries = _
  by_cases habsent : lastValue h a.1 = .nil
  · have hnot : a.1.canonical ∉ t.keys := fun hmem => (ht.mem_keys_iff ha).1 hmem habsent
    rw [put_of_notMem hnot, if_pos habsent, List.map_append, List.map_singleton, hlast a.1 ha.2,
      if_pos rfl]
    refine congrArg (· ++ _) ?_
    rw [keys] at hnot
    rw [hps.entries] at hnot ⊢
    refine List.map_congr_left fun p hp => ?_
    have hne : p.2.canonical ≠ a.1.canonical := by
      intro heq
      rw [List.map_map] at hnot
      exact hnot (List.mem_map.2 ⟨p, hp, heq⟩)
    rw [hlast p.2 (ht.of_mem_arrivals hps hp).1, if_neg hne]
  · have hmem := (ht.mem_keys_iff ha).2 habsent
    rw [put_of_mem ht.nodup hmem, if_neg habsent, List.append_nil, hps.entries, List.map_map]
    refine List.map_congr_left fun p hp => ?_
    show (if p.2.canonical = a.1.canonical then _ else _) = _
    rw [hlast p.2 (ht.of_mem_arrivals hps hp).1]
    split
    · rename_i heq
      rw [heq]
    · rfl

/-- **One more assignment** is one more step of the history. -/
theorem concat : Lists labels (t.write a.1.canonical a.2) (h ++ [a]) where
  assignable := List.forall_mem_append.2 ⟨ht.assignable, List.forall_mem_singleton.2 ha⟩
  nodup := by
    unfold write
    split
    · rw [keys_erase ha.1]
      exact ht.nodup.erase _
    · exact nodup_keys_insert ht.nodup
  get k hk := by
    rw [get_write ha.1 ht.nodup, lastValue_concat_of_labelled ha hk, ht.get k hk]
  arrivals := by
    obtain ⟨ps, hps⟩ := ht.arrivals
    refine ⟨arrivalsWith h a ps, sorted_arrivalsWith hps,
      fun n k => mem_arrivalsWith hps.mem_iff, ?_⟩
    by_cases hv : a.2 = .nil
    · exact ht.entries_leave ha hps hv
    · exact ht.entries_come ha hps hv

end Lists

/-! ## Steps -/

namespace Lists

variable (ht : Lists labels t h)
include ht

theorem push (v : Value) : Lists labels (t.push v) (record t h (.push v)) := by
  rw [Table.push, record]
  by_cases hv : v = .nil
  · rw [if_pos hv, if_pos hv]
    exact ht
  · have hconcat := ht.concat (a := (.index (t.run + 1), v)) ⟨Value.isKey_index _, trivial⟩
    rw [write, if_neg hv] at hconcat
    rw [if_neg hv, if_neg hv]
    exact hconcat

theorem foldl_place (ps : List (Value × Nat)) : Lists labels (ps.foldl place t)
    (h ++ (ps.filter fun p => p.1 ≠ .nil).map fun p => (.index p.2, p.1)) := by
  induction ps generalizing t h with
  | nil => simpa using ht
  | cons p ps ih =>
    rw [List.foldl_cons, place]
    by_cases hv : p.1 = .nil
    · rw [if_pos hv, List.filter_cons_of_neg (by simpa using hv)]
      exact ih ht
    · have hconcat := ht.concat (a := (.index p.2, p.1)) ⟨Value.isKey_index _, trivial⟩
      rw [write, if_neg hv] at hconcat
      rw [if_neg hv, List.filter_cons_of_pos (by simpa using hv), List.map_cons,
        List.append_cons]
      exact ih hconcat

/-- **A step makes its assignments.** -/
theorem step {s : Step} (hs : ∀ k v, s = .set k v → k.LabelledBy labels) :
    Lists labels (t.step s) (record t h s) := by
  cases s with
  | make vs => exact (Lists.empty labels).foldl_place (vs.zipIdx 1)
  | push v => exact ht.push v
  | set k v =>
    rw [record]
    cases hkey : k.toKey with
    | error f =>
      rw [step_set_error (set_eq_error_iff.2 hkey), if_neg (by simp [Except.isOk, Except.toBool])]
      exact ht
    | ok k' =>
      obtain ⟨rfl, hisKey⟩ := Value.toKey_eq_ok hkey
      have hisOk : (Except.ok k.canonical : Except KeyFault Value).isOk = true := rfl
      rw [step_set_ok hkey, if_pos hisOk]
      exact ht.concat (a := (k, v)) ⟨hisKey, hs k v rfl⟩

end Lists

theorem lists_history {steps : List Step}
    (hlabels : ∀ k v, .set k v ∈ steps → k.LabelledBy labels) :
    Lists labels (after steps) (history steps) := by
  induction steps using List.reverseRecOn with
  | nil => exact .empty labels
  | append_singleton steps s ih =>
    rw [after_concat, history_concat]
    refine (ih fun k v hmem => hlabels k v (List.mem_append_left _ hmem)).step ?_
    rintro k v rfl
    exact hlabels k v (List.mem_append_right _ (List.mem_singleton_self _))

/-! ## Ordered maps -/

/-- **The table is the ordered map with raw-equal keys** that some assignments make. -/
structure Reflects (labels : Nat → String) (t : Table) (h : List Entry) : Prop where
  /-- A key has the value that was assigned last to what is the same. -/
  get : ∀ k, k.LabelledBy labels → t.get k = lastValue h k
  contains : ∀ k, t.contains k = true ↔ t.get k ≠ .nil
  /-- Nil and NaN cannot be assigned to, and the attempt changes nothing. -/
  refused : ∀ k v, (∃ f, t.set k v = .error f) ↔
    k = .nil ∨ ∃ n, k = .number n ∧ n.isNaN = true
  unchanged : ∀ k v f, t.set k v = .error f → t.step (.set k v) = t
  /-- Keys are neither nil nor NaN, and integers where they equal one. -/
  keys : ∀ k ∈ t.keys, k ≠ .nil ∧ ∀ x, k = .number (.float x) →
    Binary64.isNaN x = false ∧ ∀ i, (Number.float x).same (.integer i) = false
  values : ∀ e ∈ t.entries, e.2 ≠ .nil
  distinct : t.keys.Pairwise fun k l => k.same l = false
  /-- Entries are in the order of the latest arrivals of their keys, in the form which these had. -/
  arrivals : ∃ ps : List (Nat × Value), ps.Pairwise (fun p q => p.1 < q.1) ∧
    (∀ n k, (n, k) ∈ ps ↔ Arrives h n k) ∧
    t.entries = ps.map fun p => (p.2.canonical, lastValue h p.2)

theorem toKey_eq_error_iff : (∃ f, k.toKey = .error f) ↔
    k = .nil ∨ ∃ n, k = .number n ∧ n.isNaN = true := by
  cases k with
  | nil => exact ⟨fun _ => .inl rfl, fun _ => ⟨.nil, rfl⟩⟩
  | number n =>
    cases hn : n.isNaN with
    | true => simp [Value.toKey, hn]
    | false => simp [Value.toKey, hn]
  | _ => simp [Value.toKey]

/-- A float among the keys is a number that no integer equals. -/
theorem not_same_of_isKey {x : Float} (hk : (Value.number (.float x)).IsKey) :
    Binary64.isNaN x = false ∧ ∀ i, (Number.float x).same (.integer i) = false := by
  have hcanonical : (Number.float x).canonical = .float x := Value.number.inj hk.canonical
  refine ⟨hk.isNaN_ofValue fun _ => "", fun i => ?_⟩
  rw [Number.same, hcanonical, Number.canonical_integer]

namespace Lists

variable (ht : Lists labels t h)
include ht

/-- Keys are in canonical form, with the labels that belong to them. -/
theorem of_mem_keys (hk : k ∈ t.keys) : k.IsKey ∧ k.LabelledBy labels := by
  obtain ⟨ps, hps⟩ := ht.arrivals
  rw [Table.keys, hps.entries, List.map_map] at hk
  obtain ⟨p, hp, rfl⟩ := List.mem_map.1 hk
  obtain ⟨-, v, hv⟩ := ((hps.mem_iff p.1 p.2).1 hp).mem
  obtain ⟨hisKey, hlabel⟩ := ht.assignable _ hv
  exact ⟨hisKey, hlabel.canonical⟩

theorem ne_nil_of_mem (he : e ∈ t.entries) : e.2 ≠ .nil := by
  obtain ⟨ps, hps⟩ := ht.arrivals
  rw [hps.entries] at he
  obtain ⟨p, hp, rfl⟩ := List.mem_map.1 he
  exact (ht.of_mem_arrivals hps hp).2

theorem contains_iff (k : Value) : t.contains k = true ↔ t.get k ≠ .nil := by
  unfold Table.contains Table.get
  cases hget : t.get? k with
  | none => simp
  | some v => simpa using ht.ne_nil_of_mem (mem_of_get? hget)

theorem reflects : Reflects labels t h where
  get := ht.get
  contains := ht.contains_iff
  refused k v := by
    rw [← toKey_eq_error_iff]
    exact exists_congr fun f => set_eq_error_iff
  unchanged k v f hf := step_set_error hf
  keys k hk := by
    obtain ⟨hisKey, -⟩ := ht.of_mem_keys hk
    refine ⟨hisKey.ne_nil, ?_⟩
    rintro x rfl
    exact not_same_of_isKey hisKey
  values e he := ht.ne_nil_of_mem he
  distinct := by
    refine ht.nodup.imp_of_mem fun {k l} hk hl hne => ?_
    obtain ⟨hk, hklabel⟩ := ht.of_mem_keys hk
    obtain ⟨hl, hllabel⟩ := ht.of_mem_keys hl
    refine Bool.eq_false_iff.2 fun hsame => hne ?_
    rwa [Value.same_iff (hk.canonical.symm ▸ hk) hklabel hllabel, hk.canonical, hl.canonical]
      at hsame
  arrivals := by
    obtain ⟨ps, hps⟩ := ht.arrivals
    exact ⟨ps, hps.sorted, hps.mem_iff, hps.entries⟩

end Lists

/-- **A table is what was assigned to it**, whatever was done: a key has the value that it got last,
and entries are in the order in which their keys arrived. -/
theorem reflects_history (labels : Nat → String) (steps : List Step)
    (hlabels : ∀ k v, .set k v ∈ steps → k.LabelledBy labels) :
    Reflects labels (after steps) (history steps) :=
  (lists_history hlabels).reflects

/-- Steps after which a key has left and arrived again, one was assigned in two forms, one is a
handle, and one was refused. -/
def reused : List Step :=
  [.make [.string "a", .nil, .string "c"], .set (.string "x") (.boolean true),
    .set (.number (.float (Float.ofBits 0x4000000000000000))) (.string "b"),
    .set (.string "x") .nil, .set (.string "x") (.string "y"),
    .set (.number (.float (Float.ofBits 0x7ff8000000000000))) (.string "n"), .push (.string "d"),
    .set (.function ⟨0, "f"⟩) (.index 9),
    .set (.number (.float (Float.ofBits 0x3ff0000000000000))) (.string "z")]

theorem reflects_history_reused :
    (∀ k v, .set k v ∈ reused → k.LabelledBy fun _ => "f") ∧
    (after reused).entries =
      [(.index 1, .string "z"), (.index 3, .string "c"), (.index 2, .string "b"),
        (.string "x", .string "y"), (.index 4, .string "d"), (.function ⟨0, "f"⟩, .index 9)] ∧
    (history reused).length = 9 ∧ lastValue (history reused) (.index 1) = .string "z" ∧
    Reflects (fun _ => "f") (after reused) (history reused) := by
  have hlabels (k v : Value) (hmem : .set k v ∈ reused) : k.LabelledBy fun _ => "f" := by
    simp only [reused, List.mem_cons, List.not_mem_nil, or_false, reduceCtorEq, false_or,
      Step.set.injEq] at hmem
    rcases hmem with h | h | h | h | h | h | h <;> obtain ⟨rfl, -⟩ := h <;> trivial
  exact ⟨hlabels, by decide +kernel, by decide +kernel, by decide +kernel,
    reflects_history (fun _ => "f") reused hlabels⟩

end Table

end LuaGraph
