import LuaGraph.Proofs.Binary64.Integers
import LuaGraph.Proofs.Graph.Statements

/-!
# Making the tables in the slots

The first statements of a document with slots (`write_preamble`) declare the table of slots and fill
it with new tables in a loop. The limit of the loop is compared as a float, so with very many slots
it may run on for a few rounds; the slots that are needed are there in any case.

Results: `exec_preamble` and, for documents with slots and without, `exists_prepared`.
-/

namespace LuaGraph

open Chunk Run Binary64

/-! ## One round -/

/-- After `k` rounds the table `r` holds `k` new tables, which come right after it. -/
structure HasSlots (r k : Nat) (m₀ m : Machine) : Prop where
  size : m.heap.size = r + 1 + k
  slots : (m.heap.table r).entries =
    (List.range k).map fun j => (.index (j + 1), .table (r + 1 + j))
  fresh : ∀ i, r < i → (m.heap.table i).entries = []
  old : ∀ i < r, (m.heap.table i).entries = (m₀.heap.table i).entries
  environment : m.environment = m₀.environment
  scopes : m.scopes = m₀.scopes

section

variable {r k : Nat} {m₀ m m' : Machine}

theorem eval_emptyTable (m : Machine) : (Expr.table []).eval m =
    .ok (.table m.heap.size) { m with heap := (m.heap.add .empty).2 } := by
  rw [Expr.eval, run_bind (show newTable m = .ok m.heap.size _ from rfl), fill]
  rfl

theorem eval_local {name : String} {v : Value} (h : local? m.scopes name = some v) :
    (Expr.name name).eval m = .ok v m := by
  rw [Expr.eval]
  exact run_lookup h

/-- A new table in the next slot. -/
theorem HasSlots.succ (h : HasSlots r k m₀ m) {scope : List (String × Value)}
    (hg : Grows .empty id (addedTo r [(.index (k + 1), .table (r + 1 + k))]) []
      { m with heap := (m.heap.add .empty).2, scopes := scope :: m.scopes } m') :
    HasSlots r (k + 1) m₀ { m' with scopes := m'.scopes.drop 1 } := by
  have hsize : m'.heap.size = r + 1 + k + 1 := by
    rw [hg.size, ← h.size]
    exact Heap.size_add ..
  have hentries (i : TableId) (hi : i < m'.heap.size) : (m'.heap.table i).entries =
      (m.heap.table i).entries ++ addedTo r [(.index (k + 1), .table (r + 1 + k))] i := by
    rw [hg.size] at hi
    rw [hg.entries i hi, Heap.table_add_empty]
  have hr : r < m'.heap.size := by omega
  refine ⟨hsize, ?_, fun i hi => ?_, fun i hi => ?_, hg.environment.trans h.environment, ?_⟩
  · show (m'.heap.table r).entries = _
    rw [hentries r hr, h.slots, addedTo_self, List.range_succ, List.map_append]
    rfl
  · show (m'.heap.table i).entries = _
    by_cases hlt : i < m'.heap.size
    · rw [hentries i hlt, h.fresh i hi, addedTo_of_ne (Nat.ne_of_gt hi)]
      rfl
    · rw [Heap.table_of_size_le (Nat.le_of_not_lt hlt)]
      rfl
  · show (m'.heap.table i).entries = _
    rw [hentries i (Nat.lt_trans hi hr), h.old i hi, addedTo_of_ne (Nat.ne_of_lt hi),
      List.append_nil]
  · show m'.scopes.drop 1 = _
    rw [hg.scopes, ← h.scopes]
    rfl

/-- A round makes one more table in a slot. -/
theorem exec_slotStat (h : HasSlots r k m₀ m)
    (hl : local? m₀.scopes Term.slotTable = some (.table r)) (hk : k + 1 < 2 ^ 63) :
    ∃ m', inScope [("i", .index (k + 1))] (execAll [Document.slotStat]) m = .ok () m' ∧
      HasSlots r (k + 1) m₀ m' := by
  generalize hm₁ : { m with scopes := [("i", Value.index (k + 1))] :: m.scopes } = m₁
  generalize hm₂ : { m₁ with heap := (m₁.heap.add .empty).2 } = m₂
  have hscopes : m₂.scopes = [("i", Value.index (k + 1))] :: m₀.scopes := by
    rw [← hm₂, ← hm₁, ← h.scopes]
  have hvalue : (Expr.table []).eval m₁ = .ok (.table (r + 1 + k)) m₂ := by
    rw [eval_emptyTable, hm₂, ← h.size, ← hm₁]
  have hobject : (Expr.name Term.slotTable).eval m₂ = .ok (.table r) m₂ := by
    refine eval_local ?_
    rw [hscopes, ← hl]
    rfl
  have hkey : (Expr.name "i").eval m₂ = .ok (.index (k + 1)) m₂ := by
    refine eval_local ?_
    rw [hscopes]
    rfl
  have hsize : m₂.heap.size = r + 1 + k + 1 := by
    rw [← hm₂, ← hm₁, ← h.size]
    exact Heap.size_add ..
  have hslots : m₂.heap.table r = m.heap.table r := by
    rw [← hm₂, ← hm₁]
    exact Heap.table_add_empty ..
  have hnew : Value.index (k + 1) ∉ (m₂.heap.table r).keys := by
    rw [Table.keys, hslots, h.slots, List.map_map]
    intro hmem
    obtain ⟨j, hj, heq⟩ := List.mem_map.1 hmem
    rw [List.mem_range] at hj
    have := Value.index_inj (by omega) hk heq
    omega
  obtain ⟨m₃, hset, hg⟩ := setEntry_grows (φ := id) .empty (v := .table (r + 1 + k))
    (show r < m₂.heap.size by omega) (Value.isKey_index (k + 1)) hnew
  have hstat : Document.slotStat.exec m₁ = .ok () m₃ :=
    (exec_assign_index hvalue hobject hkey).trans hset
  have hexec : execAll [Document.slotStat] m₁ = .ok () m₃ := by
    rw [execAll_cons hstat, execAll_nil]
  rw [if_neg (by simp), ← hm₂, ← hm₁] at hg
  refine ⟨{ m₃ with scopes := m₃.scopes.drop 1 }, ?_, h.succ hg⟩
  unfold inScope
  rw [hm₁, hexec]

/-- **The loop** makes all the tables in the slots. -/
theorem exec_slotLoop {n : Nat} (hn : n < 2 ^ 63) (h : HasSlots r k m₀ m)
    (hl : local? m₀.scopes Term.slotTable = some (.table r)) (hk : k + 1 < 2 ^ 63) :
    ∃ m' k', n ≤ k' ∧ HasSlots r k' m₀ m' ∧
      integerLoop (fun v => inScope [("i", v)] (execAll [Document.slotStat])) (ofInt n) 1
        ((k + 1 : Nat) : Int) m = .ok () m' := by
  generalize hleft : 2 ^ 63 - k = left
  induction left generalizing k m with
  | zero => omega
  | succ left ih =>
    rw [integerLoop]
    have hwithin : withinLimitInt ((k + 1 : Nat) : Int) 1 (ofInt n) =
        atMost (ofInt ((k + 1 : Nat) : Int)) (ofInt n) := by
      simp [withinLimitInt]
    by_cases hlimit : atMost (ofInt ((k + 1 : Nat) : Int)) (ofInt n) = true
    · obtain ⟨m₁, hround, h₁⟩ := exec_slotStat h hl hk
      have hcounter : Value.ofInt64 (Int64.ofInt ((k + 1 : Nat) : Int)) = .index (k + 1) := by
        rw [Int64.ofInt_eq_ofNat]
        rfl
      rw [hwithin, if_pos hlimit, hcounter, hround]
      dsimp only
      by_cases hnext : k + 1 + 1 < 2 ^ 63
      · obtain ⟨m', k', hk', h', hloop⟩ := ih h₁ hnext (by omega)
        refine ⟨m', k', hk', h', ?_⟩
        rw [dif_pos (by omega)]
        exact hloop
      · refine ⟨m₁, k + 1, by omega, h₁, ?_⟩
        rw [dif_neg (by omega)]
    · refine ⟨m, k, ?_, h, by rw [hwithin, if_neg hlimit]⟩
      refine Nat.le_of_not_lt fun hlt => hlimit ?_
      exact atMost_ofInt (Int.ofNat_le.2 hlt)

end

/-! ## The first statements -/

/-- A loop counts with the numbers that its bounds and its step evaluate to. -/
theorem exec_loop {counter : String} {start limit step : Expr} {a b c : Number} {m : Machine}
    (ha : start.eval m = .ok (.number a) m) (hb : limit.eval m = .ok (.number b) m)
    (hc : step.eval m = .ok (.number c) m) (body : List Stat) :
    (Stat.loop counter start limit step body).exec m =
      Run.loop (fun v => inScope [(counter, v)] (execAll body)) a b c m := by
  rw [Stat.exec, run_bind ha, run_bind (run_number .forStart a m), run_bind hb,
    run_bind (run_number .forLimit b m), run_bind hc, run_bind (run_number .forStep c m)]

/-- The machine in which the slots are filled: their table is the only local variable. -/
def withSlots (m : Machine) : Machine :=
  { m with scopes := [[(Term.slotTable, .table m.heap.size)]] }

/-- **The first statements** of a document make its table of slots, with a table in every slot. -/
theorem exec_preamble {n : Nat} {m : Machine} (hn : n < 2 ^ 63) (hscopes : m.scopes = [[]]) :
    ∃ m' k, n ≤ k ∧ HasSlots m.heap.size k (withSlots m) m' ∧
      execAll (Document.preambleStats n) m = .ok () m' := by
  generalize hm₁ : { m with
    heap := (m.heap.add .empty).2
    scopes := [[(Term.slotTable, Value.table m.heap.size)]] } = m₁
  have hdeclare : (Stat.declare Term.slotTable (.table [])).exec m = .ok () m₁ := by
    rw [Stat.exec, run_bind (eval_emptyTable m), ← hm₁]
    unfold declare
    rw [hscopes]
    rfl
  have hstart : HasSlots m.heap.size 0 (withSlots m) m₁ := by
    have htable (i : TableId) : m₁.heap.table i = m.heap.table i := by
      rw [← hm₁]
      exact Heap.table_add_empty ..
    have hempty (i : TableId) (hi : m.heap.size ≤ i) : (m₁.heap.table i).entries = [] := by
      rw [htable, Heap.table_of_size_le hi]
      rfl
    refine ⟨?_, hempty _ (Nat.le_refl _), fun i hi => hempty i (Nat.le_of_lt hi),
      fun i _ => congrArg Table.entries (htable i), ?_, ?_⟩
    · rw [← hm₁]
      exact Heap.size_add ..
    · rw [← hm₁]
      rfl
    · rw [← hm₁]
      rfl
  have hlimit : (Number.integer (Int64.ofNat n)).toFloat = ofInt n := by
    rw [Number.toFloat, Int64.toInt_ofNat_of_lt hn]
  obtain ⟨m', k, hk, hslots, hloop⟩ := exec_slotLoop hn hstart rfl (by decide)
  refine ⟨m', k, hk, hslots, ?_⟩
  have hbody : Run.loop (fun v => inScope [("i", v)] (execAll [Document.slotStat]))
      (.integer (Int64.ofNat 1)) (.integer (Int64.ofNat n)) (.integer 1) m₁ = .ok () m' := by
    rw [← hloop, ← hlimit]
    rfl
  rw [Document.preambleStats, execAll_cons hdeclare]
  exact (execAll_cons ((exec_loop (eval_natural m₁ 1) (eval_natural m₁ n)
    (eval_constant m₁ (.integer 1)) [Document.slotStat]).trans hbody)).trans (execAll_nil m')

/-! ## Slots that are ready -/

/-- A slot holds the table that was made for it. -/
theorem HasSlots.get {r k : Nat} {m₀ m : Machine} (h : HasSlots r k m₀ m) {i : Nat} (hpos : 1 ≤ i)
    (hi : i ≤ k) (hlt : i < 2 ^ 63) : (m.heap.table r).get (.index i) = .table (r + i) := by
  -- the keys before the slot differ from it, those after it may be too large to be counted
  have hlookup : ∀ n s, s < i → i ≤ s + n →
      ((List.range' s n).map fun j => (Value.index (j + 1), Value.table (r + 1 + j))).lookup
        (.index i) = some (.table (r + i)) := by
    intro n
    induction n with
    | zero => omega
    | succ n ih =>
      intro s hs hle
      rw [List.range'_succ, List.map_cons, List.lookup_cons]
      by_cases heq : i = s + 1
      · rw [heq, beq_self_eq_true, Nat.add_assoc, Nat.add_comm 1 s]
      · have hne : Value.index i ≠ Value.index (s + 1) := fun hk =>
          heq (Value.index_inj hlt (by omega) hk)
        rw [beq_false_of_ne hne]
        exact ih (s + 1) (by omega) (by omega)
  unfold Table.get Table.get?
  rw [(Value.isKey_index i).canonical, h.slots, List.range_eq_range',
    hlookup k 0 hpos (by omega), Option.getD_some]

/-- The first `n` slots are ready: the table of slots is the first new table, and the tables in the
slots come after it. -/
structure Prepared (n : Nat) (m₀ m : Machine) : Prop where
  size_le : m₀.heap.size ≤ m.heap.size
  old : ∀ i < m₀.heap.size, (m.heap.table i).entries = (m₀.heap.table i).entries
  environment : m.environment = m₀.environment
  slot : ∀ i, 1 ≤ i → i ≤ n → m₀.heap.size + i < m.heap.size ∧
    (m.heap.table m₀.heap.size).get (.index i) = .table (m₀.heap.size + i) ∧
    (m.heap.table (m₀.heap.size + i)).entries = []
  slotTable : 0 < n → local? m.scopes Term.slotTable = some (.table m₀.heap.size)
  only : OnlySlots n m

theorem HasSlots.prepared {n k : Nat} {m₀ m : Machine}
    (h : HasSlots m₀.heap.size k (withSlots m₀) m)
    (hn : n < 2 ^ 63) (hk : n ≤ k) (hpos : 0 < n) : Prepared n m₀ m where
  size_le := by
    rw [h.size, Nat.add_assoc]
    exact Nat.le_add_right ..
  old := h.old
  environment := h.environment
  slot i hi hin := by
    refine ⟨?_, h.get hi (Nat.le_trans hin hk) (Nat.lt_of_le_of_lt hin hn), ?_⟩
    · rw [h.size]
      omega
    · exact h.fresh _ (Nat.lt_add_of_pos_right hi)
  slotTable _ := by
    rw [h.scopes]
    rfl
  only name hname := by
    have hne : (name == Term.slotTable) = false := beq_false_of_ne fun heq => hname ⟨hpos, heq⟩
    rw [h.scopes, withSlots, local?, List.findSome?_cons, List.lookup_cons, hne]
    rfl

/-- **The first statements of a document get its slots ready**; without slots there are none. -/
theorem exists_prepared {n : Nat} {m : Machine} (hn : n < 2 ^ 63) (hscopes : m.scopes = [[]]) :
    ∃ m', execAll (if n = 0 then [] else Document.preambleStats n) m = .ok () m' ∧
      Prepared n m m' := by
  by_cases hzero : n = 0
  · refine ⟨m, by rw [if_pos hzero, execAll_nil], Nat.le_refl _, fun _ _ => rfl, rfl,
      fun i hi hin => ?_, fun hpos => ?_, fun name _ => ?_⟩
    · omega
    · omega
    · rw [hscopes]
      rfl
  · obtain ⟨m', k, hk, hslots, hexec⟩ := exec_preamble hn hscopes
    exact ⟨m', by rw [if_neg hzero, hexec], hslots.prepared hn hk (Nat.pos_of_ne_zero hzero)⟩

end LuaGraph
