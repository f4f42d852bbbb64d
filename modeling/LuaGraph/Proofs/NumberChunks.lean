import LuaGraph.Proofs.Chunk.Assigned
import LuaGraph.Proofs.Graph.Slots

/-!
# Numbers in chunks

A number is written as an expression (`format_number`), which stands for it wherever the grammar has
a place for an expression: as the value of an assignment, and in brackets as the key of a table. In
both places the text is parsed to one and the same tree, and the tree is evaluated to the number.

Headlines:
* `parse_assigned_number`, `parse_keyed_number`: both texts are parsed to that tree.
* **`exists_readsBack`**: it is evaluated to the number, and the chunks store that.
-/

namespace LuaGraph

open Chunk

/-! ## The size of a numeral -/

namespace Spelling

theorem height_le (w : Spelling) : w.height ≤ 3 := by
  cases w with
  | literal neg c => cases neg <;> simp [height]
  | operation neg left op right => exact Nat.le_refl 3

theorem length_constants_le (w : Spelling) : w.constants.length ≤ 2 := by
  cases w with
  | literal neg c => exact Nat.le_succ 1
  | operation neg left op right => exact Nat.le_refl 2

end Spelling

namespace Chunk

open Parse

variable {n : Number} {limits : Limits}

theorem size_constants_le (n : Number) :
    (n.spelling.constants.foldl (·.insert ·) (∅ : Constants)).size + 1 ≤ 3 :=
  Nat.succ_le_succ (Nat.le_trans (size_le_length fun _ hc => hc) n.spelling.length_constants_le)

/-! ## A number as a value -/

/-- **A number as a value** is parsed to its tree. -/
theorem parse_assigned_number (n : Number) (hd : 3 ≤ limits.maxDepth)
    (hc : 3 ≤ limits.maxConstants) :
    parse limits ("x = " ++ n.numeral) = .ok [.assign (.name "x") n.spelling.expr] := by
  have hwritable : (Term.atom (.number n)).Writable 0 := trivial
  have hparse : parse limits ("x" ++ " = " ++ (Term.atom (.number n)).text .compact 0) =
      .ok (Document.single "x" (.atom (.number n))).program :=
    (parse_single_iff (by decide) (by decide) .compact hwritable
      (Nat.le_trans (size_constants_le n) hc)).2 ⟨rfl, Nat.le_trans n.spelling.height_le hd⟩
  exact hparse

/-! ## A number as a key -/

/-- The tokens of an entry of a global table whose key is a number. -/
def entryTokens (n : Number) : List Token :=
  .name "t" :: ((Term.atom (.number n)).suffixTokens false ++ [.mark .equals, .keyword "true"])

theorem spells_keyed (n : Number) :
    Spells ("t = \x7b\x7d t[" ++ n.numeral ++ "] = true").toList
      (.name "t" :: .mark .equals :: .mark .openBrace :: .mark .closeBrace :: entryTokens n) := by
  have hname {rest : List Char} (hr : ∀ c ∈ rest.head?, Text.Name.isPart c = false) :
      Reads "t".toList [.name "t"] rest := reads_name (by decide) hr
  have htrue : Reads "true".toList [.keyword "true"] [] :=
    reads_keyword (by decide) (by decide) (by simp)
  have hvalue := reads_assigned htrue
  have hindex := (reads_bracketed (opens_numeral n) (reads_numeral n) _).append hvalue
  have hentry := (hname (by simp [String.toList_append]; decide)).before hindex
  have htable := ((hentry.blank (c := ' ') (by decide)).braces).equals
  have hall := ((hname (by simp; decide)).before htable).spells
  simpa [entryTokens, Term.suffixTokens, Term.bareName?, Atom.bareName?, Term.tokens, Atom.tokens,
    String.toList_append] using hall

namespace Parse

variable {max levels : Nat} {s : State} {name : String} {rest : List Token}

/-- An empty table for a global variable. -/
theorem run_newTable (hs : s.tokens =
      .name name :: .mark .equals :: .mark .openBrace :: .mark .closeBrace :: rest)
    (hclosed : Closed rest) (hlocal : s.isLocal name = false) (hne : name ≠ "_ENV")
    (hr : s.Room max [.string name]) (hl : 1 ≤ levels) :
    statement max (inner max levels) s =
      .ok (some (.assign (.name name) (.table [])), s.past 4 [.string name]) := by
  have hsuffixed : suffixed max (inner max levels) s =
      .ok (.name name, s.past 1 [.string name]) := run_suffixed_global hs hlocal hne hr
  have hvalue : (s.past 1 [.string name]).tokens =
      .mark .equals :: ((Term.table []).tokens false ++ rest) := by
    rw [State.tokens_past, hs]
    rfl
  have hwritable : (Term.table []).Writable 0 := trivial
  exact run_assigned hwritable (congrArg List.head? hs) hsuffixed rfl hvalue hclosed
    (fun h => absurd h (Nat.lt_irrefl 0)) hr hl

/-- An entry of a global table whose key is a number. -/
theorem run_numberEntry {n : Number} (hs : s.tokens = entryTokens n)
    (hlocal : s.isLocal "t" = false) (hr : s.Room max (.string "t" :: n.spelling.constants))
    (hl : 3 ≤ levels) : ∃ s', s'.tokens = [] ∧ statement max (inner max levels) s =
      .ok (some (.assign (.index (.name "t") n.spelling.expr) (.boolean true)), s') := by
  have hroom : s.Room max
      ([.string "t"] ++ n.spelling.constants ++ (Term.atom (.boolean true)).constants) := by
    simpa [Term.constants, Atom.constants] using hr
  have hprimary : primary max (inner max levels) s = .ok (.name "t", s.past 1 [.string "t"]) :=
    run_primary_global hs hlocal (by decide) hroom.left.left
  have hkey : (Term.atom (.number n)).Writable 0 := trivial
  have hvalue : (Term.atom (.boolean true)).Writable 0 := trivial
  have hs₁ : (s.past 1 [.string "t"]).tokens = (Term.atom (.number n)).suffixTokens false ++
      .mark .equals :: ((Term.atom (.boolean true)).tokens false ++ []) := by
    rw [State.tokens_past, hs]
    rfl
  have hne : (s.past 1 [.string "t"]).tokens ≠ [] := by
    rw [hs₁]
    exact List.append_ne_nil_of_right_ne_nil _ (List.cons_ne_nil _ _)
  have hstat := run_keyAssigned hkey hvalue (congrArg List.head? hs) hprimary .nil
    (List.length_pos_iff.2 hne) hs₁ (by simp [Closed]) (fun h => absurd h (Nat.lt_irrefl 0)) hroom
    (Nat.le_trans n.spelling.height_le hl) (Nat.le_trans (by decide) hl)
  have hlength : 1 + ((Term.atom (.number n)).suffixTokens false).length + 1 +
      ((Term.atom (.boolean true)).tokens false).length = s.tokens.length := by
    have hone : ((Term.atom (.boolean true)).tokens false).length = 1 := rfl
    rw [hs, entryTokens, List.length_cons, List.length_append, hone, Nat.add_comm 1]
    rfl
  refine ⟨_, ?_, hstat⟩
  rw [State.tokens_past, hlength, List.drop_length]

/-- The name is one constant, however often it stands in the text. -/
theorem room_keyed (n : Number) (hframe : s.frame = {}) (hc : 3 ≤ max) :
    s.Room max ([.string "t"] ++ (.string "t" :: n.spelling.constants)) := by
  have hmem (c : Constant) (hc : c ∈ [.string "t"] ++ (.string "t" :: n.spelling.constants)) :
      c ∈ Constant.string "t" :: n.spelling.constants := by simpa using hc
  have hsize := size_le_length hmem
  have hlength := Nat.succ_le_succ n.spelling.length_constants_le
  unfold State.Room State.past
  rw [hframe]
  exact Nat.le_trans hsize (Nat.le_trans hlength hc)

/-- A table and an entry in it whose key is a number, from the start of a chunk. -/
theorem run_keyed {n : Number} (hs : s.tokens =
      .name "t" :: .mark .equals :: .mark .openBrace :: .mark .closeBrace :: entryTokens n)
    (hframe : s.frame = {}) (houter : s.outer = []) (hd : 3 ≤ levels) (hc : 3 ≤ max) :
    ∃ s', s'.tokens = [] ∧ statements max (inner max levels) s =
      .ok ([.assign (.name "t") (.table []),
        .assign (.index (.name "t") n.spelling.expr) (.boolean true)], s') := by
  have hlocal : s.isLocal "t" = false := by
    simp [State.isLocal, hframe, houter]
  have hroom := room_keyed n hframe hc
  have hclosed : Closed (entryTokens n) := by
    rintro t ⟨⟩
    rfl
  have hfirst : statement max (inner max levels) s = _ :=
    run_newTable hs hclosed hlocal (by decide) hroom.left (Nat.le_trans (by decide) hd)
  have hs₁ : (s.past 4 [.string "t"]).tokens = entryTokens n := by
    rw [State.tokens_past, hs]
    rfl
  obtain ⟨s', hs', hsecond⟩ := run_numberEntry hs₁ hlocal (State.room_past.2 hroom) hd
  have h₁ := run_statementsRound [] hs (by simp) hfirst
  have h₂ := run_statementsRound [.assign (.name "t") (.table [])] hs₁ (by simp) hsecond
  have hlast (done : List Stat) := run_statementsRound_last max (inner max levels) done
    (s := s') (.inl (by rw [hs']; rfl))
  refine ⟨s', hs', ?_⟩
  rw [statements_eq, run_rounds ((Chain.next h₁ (.next h₂ .nil)).repeats (hlast _))]
  · rfl
  · rw [hs]
    simp

end Parse

/-- **A number as a key** is parsed to the same tree. -/
theorem parse_keyed_number (n : Number) (hd : 3 ≤ limits.maxDepth)
    (hc : 3 ≤ limits.maxConstants) :
    parse limits ("t = \x7b\x7d t[" ++ n.numeral ++ "] = true") =
      .ok [.assign (.name "t") (.table []),
        .assign (.index (.name "t") n.spelling.expr) (.boolean true)] := by
  obtain ⟨lexemes, stop, hlex, htokens⟩ := lexFrom_of_spells (spells_keyed n) {} #[]
  obtain ⟨s', hs', hrun⟩ := run_keyed (s := { lexemes, stop }) htokens rfl rfl hd hc
  exact parse_eq_ok_iff.2 ⟨⟨lexemes, stop⟩, s', hlex, run_chunk hrun hs'⟩

/-! ## Loading -/

open Run

/-- The machine on which a chunk starts to run. -/
def Machine.start (H : Heap) : Machine := { heap := (H.add .empty).2, environment := H.size }

theorem load_eq {text : String} {body : List Stat} (h : parse limits text = .ok body) (H : Heap) :
    load limits text H = match execAll body (Machine.start H) with
      | .ok () m => .ok (H.size, m.heap)
      | .error f _ => .error (.run f) := by
  unfold load
  rw [h]
  rfl

section

variable {H : Heap} {m m' : Machine} {name : String}

theorem eval_global (hl : local? m.scopes name = none) (hn : name ≠ "_ENV") :
    (Expr.name name).eval m = .ok ((m.heap.table m.environment).get (.string name)) m := by
  rw [Expr.eval]
  unfold lookup
  rw [run_bind (show (get : Run Machine) m = .ok m m from rfl), hl]
  simp only [if_neg hn]
  rfl

theorem exec_assign_global {value : Expr} {v : Value} (hv : value.eval m = .ok v m')
    (hl : local? m'.scopes name = none) (hn : name ≠ "_ENV") :
    (Stat.assign (.name name) value).exec m =
      .ok () { m' with heap := m'.heap.update m'.environment (·.write (.string name) v) } := by
  rw [exec_assign_name hv, run_assignName hl hn]
  rfl

theorem entries_update {t : TableId} (ht : t < H.size) (hempty : H.table t = .empty) (k : Value)
    {v : Value} (hv : v ≠ .nil) : ((H.update t (·.write k v)).table t).entries = [(k, v)] := by
  rw [Heap.table_update, if_pos ⟨rfl, ht⟩, hempty, Table.entries_write_empty, if_neg hv]

end

section

variable (H : Heap)

theorem size_start : (Machine.start H).heap.size = H.size + 1 := Heap.size_add ..

theorem table_start {t : TableId} (h : H.size ≤ t) : (Machine.start H).heap.table t = .empty :=
  (Heap.table_add_empty H t).trans (Heap.table_of_size_le h)

/-- A chunk with a number as a value leaves the number in its variable. -/
theorem load_assigned_number (n : Number) (hd : 3 ≤ limits.maxDepth)
    (hc : 3 ≤ limits.maxConstants) : ∃ H', load limits ("x = " ++ n.numeral) H = .ok (H.size, H') ∧
      (H'.table H.size).entries = [(.string "x", .number n)] := by
  have hlt : H.size < (Machine.start H).heap.size := by
    rw [size_start]
    exact Nat.lt_succ_self _
  have hexec : (Stat.assign (.name "x") n.spelling.expr).exec (Machine.start H) = .ok () _ :=
    exec_assign_global (eval_spelling _ n) rfl (by decide)
  refine ⟨(Machine.start H).heap.update H.size (·.write (.string "x") (.number n)), ?_,
    entries_update hlt (table_start H (Nat.le_refl _)) _ (by simp)⟩
  rw [load_eq (parse_assigned_number n hd hc), execAll_cons hexec, execAll_nil]
  rfl

/-- After the first statement, the variable holds a new table. -/
structure HasTable (m : Machine) : Prop where
  environment : m.environment = H.size
  scopes : m.scopes = [[]]
  size : m.heap.size = H.size + 2
  bound : (m.heap.table H.size).entries = [(.string "t", .table (H.size + 1))]
  empty : m.heap.table (H.size + 1) = .empty

theorem exec_newTable : ∃ m, HasTable H m ∧
    (Stat.assign (.name "t") (.table [])).exec (Machine.start H) = .ok () m := by
  generalize hm : ({ Machine.start H with heap := ((Machine.start H).heap.add .empty).2 } : Machine)
    = m
  have hvalue : (Expr.table []).eval (Machine.start H) = .ok (.table (H.size + 1)) m := by
    rw [eval_emptyTable, hm, size_start]
  have henv : m.environment = H.size := by
    rw [← hm]
    rfl
  have hscopes : m.scopes = [[]] := by
    rw [← hm]
    rfl
  have hsize : m.heap.size = H.size + 2 := by
    rw [← hm, Heap.size_add, size_start]
  have hlt : H.size < m.heap.size := by
    rw [hsize]
    omega
  have htable {t : TableId} (h : H.size ≤ t) : m.heap.table t = .empty := by
    rw [← hm, Heap.table_add_empty]
    exact table_start H h
  have hexec : (Stat.assign (.name "t") (.table [])).exec (Machine.start H) = .ok () _ :=
    exec_assign_global hvalue (by rw [hscopes]; rfl) (by decide)
  refine ⟨_, ?_, hexec⟩
  refine ⟨henv, hscopes, ?_, ?_, ?_⟩
  · exact (Heap.size_update ..).trans hsize
  · dsimp only
    rw [henv]
    exact entries_update hlt (htable (Nat.le_refl _)) _ (by simp)
  · dsimp only
    rw [henv, Heap.table_update, if_neg (fun h => Nat.succ_ne_self _ h.1)]
    exact htable (Nat.le_succ _)

variable {H}

theorem HasTable.exec {m : Machine} (h : HasTable H m) (n : Number) :
    (Stat.assign (.index (.name "t") n.spelling.expr) (.boolean true)).exec m =
      setEntry (H.size + 1) (.number n) (.boolean true) m := by
  have hvalue : (Expr.boolean true).eval m = .ok (.boolean true) m := by
    rw [Expr.eval]
    rfl
  have hobject : (Expr.name "t").eval m = .ok (.table (H.size + 1)) m := by
    have hname : "t" ≠ "_ENV" := by decide
    rw [eval_global (by rw [h.scopes]; rfl) hname, h.environment]
    unfold Table.get Table.get?
    rw [h.bound]
    rfl
  exact exec_assign_index hvalue hobject (eval_spelling m n)

/-- A chunk with a number as a key leaves the number in canonical form as the only key of the
table. -/
theorem load_keyed_number {n : Number} (hn : n.isNaN = false) (hd : 3 ≤ limits.maxDepth)
    (hc : 3 ≤ limits.maxConstants) (H : Heap) :
    ∃ H', load limits ("t = \x7b\x7d t[" ++ n.numeral ++ "] = true") H = .ok (H.size, H') ∧
      (H'.table H.size).entries = [(.string "t", .table (H.size + 1))] ∧
      (H'.table (H.size + 1)).entries = [(.number n.canonical, .boolean true)] := by
  obtain ⟨m, hm, hfirst⟩ := exec_newTable H
  have hlt : H.size + 1 < m.heap.size := by
    rw [hm.size]
    omega
  have hsecond : (Stat.assign (.index (.name "t") n.spelling.expr) (.boolean true)).exec m =
      .ok () { m with
        heap := m.heap.update (H.size + 1) (·.write (.number n.canonical) (.boolean true)) } := by
    rw [hm.exec, setEntry, Value.toKey, hn]
    rfl
  refine ⟨m.heap.update (H.size + 1) (·.write (.number n.canonical) (.boolean true)), ?_, ?_,
    entries_update hlt hm.empty _ (by simp)⟩
  · rw [load_eq (parse_keyed_number n hd hc), execAll_cons hfirst, execAll_cons hsecond,
      execAll_nil]
  · rw [Heap.table_update, if_neg (fun h => Nat.succ_ne_self _ h.1.symm)]
    exact hm.bound

/-- A chunk with NaN as a key is refused. -/
theorem load_keyed_nan {n : Number} (hn : n.isNaN = true) (hd : 3 ≤ limits.maxDepth)
    (hc : 3 ≤ limits.maxConstants) (H : Heap) :
    load limits ("t = \x7b\x7d t[" ++ n.numeral ++ "] = true") H =
      .error (.run (.badKey .nan)) := by
  obtain ⟨m, hm, hfirst⟩ := exec_newTable H
  have hsecond : (Stat.assign (.index (.name "t") n.spelling.expr) (.boolean true)).exec m =
      .error (.badKey .nan) m := by
    rw [hm.exec, setEntry, Value.toKey, hn]
    rfl
  rw [load_eq (parse_keyed_number n hd hc), execAll_cons hfirst, execAll_cons_error [] hsecond]

end

/-! ## Both places -/

/-- The text of a number, as a value and as a key, is parsed to the tree `e`, which is evaluated to
the number; and that is what the two chunks store. Numbers are equal if both are integers or both
are floats, and they have the same bits; there is one NaN. -/
structure ReadsBack (limits : Limits) (n : Number) (e : Expr) : Prop where
  /-- As a value the text is parsed to the tree. -/
  value : parse limits ("x = " ++ n.numeral) = .ok [.assign (.name "x") e]
  /-- As a key, too. -/
  key : parse limits ("t = \x7b\x7d t[" ++ n.numeral ++ "] = true") =
    .ok [.assign (.name "t") (.table []), .assign (.index (.name "t") e) (.boolean true)]
  /-- The tree is evaluated to the number, in any state of a run. -/
  eval : ∀ m, e.eval m = .ok (.number n) m
  /-- The variable holds the number. -/
  loadValue : ∀ H, ∃ H', load limits ("x = " ++ n.numeral) H = .ok (H.size, H') ∧
    (H'.table H.size).entries = [(.string "x", .number n)]
  /-- The number is the key of the only entry of the table. -/
  loadKey : n.isNaN = false → ∀ H, ∃ H',
    load limits ("t = \x7b\x7d t[" ++ n.numeral ++ "] = true") H = .ok (H.size, H') ∧
      (H'.table H.size).entries = [(.string "t", .table (H.size + 1))] ∧
      (H'.table (H.size + 1)).entries = [(.number n.canonical, .boolean true)]
  /-- NaN is evaluated to NaN, which is no key. -/
  loadNaN : n.isNaN = true → ∀ H,
    load limits ("t = \x7b\x7d t[" ++ n.numeral ++ "] = true") H = .error (.run (.badKey .nan))

/-- **Every number reads back exactly**, where there are three levels and three constants: the
infinities need as many, an operation on two literals in parentheses beside a name. -/
theorem exists_readsBack (n : Number) {limits : Limits} (hd : 3 ≤ limits.maxDepth)
    (hc : 3 ≤ limits.maxConstants) : ∃ e, ReadsBack limits n e :=
  ⟨n.spelling.expr, {
    value := parse_assigned_number n hd hc
    key := parse_keyed_number n hd hc
    eval := fun m => eval_spelling m n
    loadValue := fun H => load_assigned_number H n hd hc
    loadKey := fun hn => load_keyed_number hn hd hc
    loadNaN := fun hn => load_keyed_nan hn hd hc }⟩

/-- The least integer, which has no literal, reads back from a difference. -/
theorem exists_readsBack_least :
    (Number.integer Int64.minValue).numeral = "(-9223372036854775807 - 1)" ∧
      3 ≤ ({} : Limits).maxDepth ∧ 3 ≤ ({} : Limits).maxConstants ∧
      ∃ e, ReadsBack {} (.integer Int64.minValue) e :=
  ⟨by decide, by decide, by decide,
    exists_readsBack (.integer Int64.minValue) (by decide) (by decide)⟩

end Chunk

end LuaGraph
