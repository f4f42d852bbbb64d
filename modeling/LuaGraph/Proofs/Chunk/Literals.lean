import LuaGraph.Proofs.Chunk.Program
import Mathlib.Algebra.GroupWithZero.Nat
import Mathlib.Data.List.Nodup
import Mathlib.Data.List.Perm.Subperm

/-!
# Literals and constants

Literals are counted where a document is laid out (`push_literal`), constants where its text is
parsed (`add_constant`). A literal has one constant, except for the numbers that are written as
operations: these have two, but only three constants occur in them. So the constants of some
literals are at most one more than those.

Results: `OfLiterals.size_le`, and `ofLiterals_term` with its like for statements.
-/

namespace LuaGraph.Chunk

/-! ## Sets of constants -/

theorem mem_foldl_insert {c : Constant} {cs : List Constant} {set : Constants} :
    c ∈ cs.foldl (·.insert ·) set ↔ c ∈ cs ∨ c ∈ set := by
  induction cs generalizing set with
  | nil => simp
  | cons d cs ih =>
    rw [List.foldl_cons, ih, Constants.mem_insert, List.mem_cons, or_left_comm, or_assoc, eq_comm]

/-- Constants from a list are at most as many as the list is long. -/
theorem size_le_length {cs ds : List Constant} (h : ∀ c ∈ cs, c ∈ ds) :
    (cs.foldl (·.insert ·) (∅ : Constants)).size ≤ ds.length := by
  generalize hset : cs.foldl (·.insert ·) (∅ : Constants) = set
  have hnodup : set.toList.Nodup :=
    (Std.TreeSet.distinct_toList (t := set)).imp fun hne heq => hne (Constant.order_eq_iff.2 heq)
  have hsub : set.toList ⊆ ds := by
    intro c hc
    have := Std.TreeSet.mem_of_mem_toList hc
    rw [← hset, mem_foldl_insert] at this
    exact h c (this.resolve_right Std.TreeSet.not_mem_emptyc)
  rw [← Std.TreeSet.length_toList]
  exact (List.subperm_of_subset hnodup hsub).length_le

/-! ## Literals -/

/-- The constants in the numbers that are written as operations. -/
def operands : List Constant :=
  [naturalConstant 0, naturalConstant 1, naturalConstant 9223372036854775807]

/-- The constants of one literal: a constant, or two of those in operations. -/
def OfOne (cs : List Constant) : Prop := cs.length ≤ 1 ∨ cs.length = 2 ∧ cs ⊆ operands

/-- The constants of some literals, at most as many as given. -/
def OfLiterals (n : Nat) (cs : List Constant) : Prop :=
  ∃ groups : List (List Constant), groups.length ≤ n ∧ groups.flatten = cs ∧
    ∀ group ∈ groups, OfOne group

namespace OfLiterals

variable {n k : Nat} {cs ds : List Constant}

theorem nil : OfLiterals n [] :=
  ⟨[], Nat.zero_le n, rfl, fun _ h => absurd h List.not_mem_nil⟩

theorem one (h : OfOne cs) : OfLiterals 1 cs :=
  ⟨[cs], Nat.le_refl 1, List.flatten_singleton, fun _ hg => List.mem_singleton.1 hg ▸ h⟩

theorem mono (h : OfLiterals n cs) (hle : n ≤ k) : OfLiterals k cs := by
  obtain ⟨gs, hlen, hrest⟩ := h
  exact ⟨gs, Nat.le_trans hlen hle, hrest⟩

theorem constant (c : Constant) : OfLiterals 1 [c] := one (.inl (Nat.le_refl 1))

theorem append (h : OfLiterals n cs) (h' : OfLiterals k ds) : OfLiterals (n + k) (cs ++ ds) := by
  obtain ⟨gs, hlen, rfl, hg⟩ := h
  obtain ⟨gs', hlen', rfl, hg'⟩ := h'
  refine ⟨gs ++ gs', ?_, List.flatten_append, fun g hmem => ?_⟩
  · rw [List.length_append]
    exact Nat.add_le_add hlen hlen'
  · exact (List.mem_append.1 hmem).elim (hg g) (hg' g)

theorem flatMap {α : Type} {f : α → List Constant} {m : α → Nat} (xs : List α)
    (h : ∀ x ∈ xs, OfLiterals (m x) (f x)) : OfLiterals (xs.map m).sum (xs.flatMap f) := by
  induction xs with
  | nil => exact nil
  | cons x xs ih =>
    rw [List.map_cons, List.sum_cons, List.flatMap_cons]
    exact (h x (List.mem_cons_self ..)).append (ih fun y hy => h y (List.mem_cons_of_mem x hy))

theorem length_flatten_le {groups : List (List Constant)}
    (h : ∀ group ∈ groups, group.length ≤ 1) : groups.flatten.length ≤ groups.length := by
  induction groups with
  | nil => exact Nat.le_refl 0
  | cons g groups ih =>
    have hg := h g (List.mem_cons_self ..)
    have hgs := ih fun g' hg' => h g' (List.mem_cons_of_mem g hg')
    rw [List.flatten_cons, List.length_append, List.length_cons]
    omega

/-- **There is at most one constant more than there are literals.** -/
theorem size_le (h : OfLiterals n cs) :
    (cs.foldl (·.insert ·) (∅ : Constants)).size ≤ n + 1 := by
  obtain ⟨groups, hn, rfl, hgroups⟩ := h
  generalize hwide : groups.filter (fun g => decide (g.length = 2)) = wide
  generalize hnarrow : groups.filter (fun g => !decide (g.length = 2)) = narrow
  have hlength : wide.length + narrow.length = groups.length := by
    rw [← hwide, ← hnarrow, ← List.length_append]
    exact (List.filter_append_perm _ groups).length_eq
  have hle : narrow.flatten.length ≤ narrow.length := by
    refine length_flatten_le fun g hg => ?_
    rw [← hnarrow, List.mem_filter, Bool.not_eq_true', decide_eq_false_iff_not] at hg
    exact (hgroups g hg.1).resolve_right fun h => hg.2 h.1
  have hmem (c : Constant) (hc : c ∈ groups.flatten) :
      c ∈ narrow.flatten ∨ ∃ g ∈ wide, c ∈ g := by
    obtain ⟨g, hg, hc⟩ := List.mem_flatten.1 hc
    by_cases h2 : g.length = 2
    · refine .inr ⟨g, ?_, hc⟩
      rw [← hwide]
      exact List.mem_filter.2 ⟨hg, decide_eq_true h2⟩
    · refine .inl (List.mem_flatten.2 ⟨g, ?_, hc⟩)
      rw [← hnarrow]
      exact List.mem_filter.2 ⟨hg, by rw [decide_eq_false h2]; rfl⟩
  have hwide' (g : List Constant) (hg : g ∈ wide) : g.length = 2 ∧ g ⊆ operands := by
    rw [← hwide, List.mem_filter, decide_eq_true_eq] at hg
    exact (hgroups g hg.1).resolve_left (by omega)
  have hbound (ds : List Constant) (hds : ∀ c ∈ groups.flatten, c ∈ narrow.flatten ++ ds) :
      (groups.flatten.foldl (·.insert ·) (∅ : Constants)).size ≤ narrow.length + ds.length := by
    have := size_le_length hds
    rw [List.length_append] at this
    omega
  -- one operation has two constants, several have three between them
  rcases wide with _ | ⟨g, _ | ⟨g', wide⟩⟩
  · have := hbound [] fun c hc => by
      rw [List.append_nil]
      exact (hmem c hc).resolve_right fun ⟨g, hg, _⟩ => List.not_mem_nil hg
    simp only [List.length_nil] at hlength this
    omega
  · have := hbound g fun c hc => List.mem_append.2
      ((hmem c hc).imp id fun ⟨g', hg', hc⟩ => List.mem_singleton.1 hg' ▸ hc)
    have h2 := (hwide' g (List.mem_singleton_self g)).1
    rw [List.length_singleton] at hlength
    omega
  · have := hbound operands fun c hc => List.mem_append.2
      ((hmem c hc).imp id fun ⟨g', hg', hc⟩ => (hwide' g' hg').2 hc)
    have h3 : operands.length = 3 := rfl
    rw [List.length_cons, List.length_cons] at hlength
    omega

end OfLiterals

/-! ## Terms -/

theorem ofOne_spelling (n : Number) : OfOne n.spelling.constants := by
  have hoperation {neg : Bool} {left right : Constant} {op : Operator} (hl : left ∈ operands)
      (hr : right ∈ operands) : OfOne (Spelling.operation neg left op right).constants := by
    refine .inr ⟨rfl, fun c hc => ?_⟩
    rcases List.mem_cons.1 hc with rfl | hc
    · exact hl
    · exact List.mem_singleton.1 hc ▸ hr
  have hzero : naturalConstant 0 ∈ operands := List.mem_cons_self ..
  have hone : naturalConstant 1 ∈ operands := List.mem_cons_of_mem _ (List.mem_cons_self ..)
  have htop : naturalConstant 9223372036854775807 ∈ operands :=
    List.mem_cons_of_mem _ (List.mem_cons_of_mem _ (List.mem_cons_self ..))
  cases n with
  | integer i =>
    unfold Number.spelling
    dsimp only
    split
    · exact hoperation htop hone
    · exact .inl (Nat.le_refl 1)
  | float x =>
    unfold Number.spelling
    dsimp only
    split
    · exact hoperation hzero hzero
    · split
      · exact hoperation hone hzero
      · exact .inl (Nat.le_refl 1)

mutual

/-- **The constants of a term are those of its literals.** -/
theorem ofLiterals_term : (t : Term) → OfLiterals t.literals t.constants
  | .atom .nil => .nil
  | .atom (.boolean _) => .nil
  | .atom (.number n) => .one (ofOne_spelling n)
  | .atom (.string s) => .constant (.string s)
  | .atom (.remark _) => .nil
  | .slot i => .constant (naturalConstant i)
  | .tooDeep => .nil
  | .table fs => ofLiterals_fields fs

theorem ofLiterals_fields : (fs : List Field) →
    OfLiterals (Term.fieldsLiterals fs) (Term.fieldsConstants fs)
  | [] => .nil
  | f :: fs => (ofLiterals_field f).append (ofLiterals_fields fs)

theorem ofLiterals_field : (f : Field) → OfLiterals (Term.fieldLiterals f) (Term.fieldConstants f)
  | .item v => ofLiterals_term v
  | .pair k v => (ofLiterals_term k).append (ofLiterals_term v)

end

theorem ofLiterals_fill (f : Fill) : OfLiterals f.literals f.constants :=
  ((OfLiterals.constant (naturalConstant f.slot)).append (ofLiterals_term f.key)).append
    (ofLiterals_term f.value)

theorem ofLiterals_binding (b : Binding) :
    OfLiterals (b.key.literals + b.value.literals) b.constants :=
  (ofLiterals_term b.key).append (ofLiterals_term b.value)

end LuaGraph.Chunk
