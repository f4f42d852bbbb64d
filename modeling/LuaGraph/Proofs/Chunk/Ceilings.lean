import LuaGraph.Proofs.Chunk.Rules

/-!
# Higher ceilings

What is parsed under some ceilings (`Limits`) is parsed to the same tree under higher ones, and
under other ones unless they are exceeded. Every rule of the grammar keeps this: it looks at a
ceiling only to fail.

Results: `parse_of_parse`, `deeper_bounding`, and what a run of the parser is in terms of tokens
(`parse_eq_ok_iff`).
-/

namespace LuaGraph.Chunk.Parse

/-! ## Refinement -/

/-- The second parser has the results of the first one, and may have results where it fails. -/
def Refines {α : Type} (p q : Parse α) : Prop := ∀ s r, p s = .ok r → q s = .ok r

variable {α β : Type}

theorem Refines.refl (p : Parse α) : Refines p p := fun _ _ h => h

theorem Refines.bind {p q : Parse α} {f g : α → Parse β} (h : Refines p q)
    (h' : ∀ a, Refines (f a) (g a)) : Refines (p >>= f) (q >>= g) := by
  intro s r hr
  obtain ⟨a, s', hp, hf⟩ := bind_eq_ok.1 hr
  exact bind_eq_ok.2 ⟨a, s', h s _ hp, h' a s' _ hf⟩

theorem refines_addConstant {m m' : Nat} (h : m ≤ m') (c : Constant) :
    Refines (addConstant m c) (addConstant m' c) := by
  intro s r hr
  obtain ⟨hr, hle⟩ := addConstant_eq_ok_iff.1 hr
  exact addConstant_eq_ok_iff.2 ⟨hr, Nat.le_trans hle h⟩

/-- That the second ceilings allow what the first allow is a law. -/
def refining (most : Bool → Nat) (hm : most false ≤ most true) : Law Bool most where
  Holds p := Refines (p false) (p true)
  step _ := Refines.refl _
  bind h h' := h.bind h'
  count c := refines_addConstant hm c

/-- A ceiling is exceeded. -/
def ExceedsCeiling : GrammarFault → Prop
  | .tooManyLevels => True
  | .tooManyConstants _ => True
  | _ => False

/-- Where the first parser has a result, the second one has the same, or exceeds a ceiling. -/
def Bounds {α : Type} (p q : Parse α) : Prop :=
  ∀ s r, p s = .ok r → q s = .ok r ∨ ∃ e, q s = .error e ∧ ExceedsCeiling e.2

theorem Bounds.bind {p q : Parse α} {f g : α → Parse β} (h : Bounds p q)
    (h' : ∀ a, Bounds (f a) (g a)) : Bounds (p >>= f) (q >>= g) := by
  intro s r hr
  obtain ⟨a, s', hp, hf⟩ := bind_eq_ok.1 hr
  rcases h s _ hp with hq | ⟨e, hq, he⟩
  · rcases h' a s' r hf with hg | ⟨e, hg, he⟩
    · exact .inl (bind_eq_ok.2 ⟨a, s', hq, hg⟩)
    · exact .inr ⟨e, bind_eq_error.2 (.inr ⟨a, s', hq, hg⟩), he⟩
  · exact .inr ⟨e, bind_eq_error.2 (.inl hq), he⟩

theorem bounds_addConstant (m m' : Nat) (c : Constant) :
    Bounds (addConstant m c) (addConstant m' c) := by
  intro s r hr
  obtain ⟨rfl, -⟩ := addConstant_eq_ok_iff.1 hr
  rw [addConstant_eq]
  split
  · exact .inr ⟨_, rfl, trivial⟩
  · exact .inl rfl

/-- That the second ceilings change a result only by being exceeded is a law. -/
def bounding (most : Bool → Nat) : Law Bool most where
  Holds p := Bounds (p false) (p true)
  step _ := fun _ _ hr => .inl hr
  bind h h' := h.bind h'
  count c := bounds_addConstant _ _ c

/-- Two numbers of levels above none are those of one level less. -/
theorem eq_cond_succ {depth : Bool → Nat} {levels levels' : Nat}
    (h : depth false = levels + 1) (h' : depth true = levels' + 1) :
    depth = fun b => cond b levels' levels + 1 := by
  funext b
  cases b with
  | false => exact h
  | true => exact h'

/-- More levels refine fewer. -/
theorem deeper_refining {most depth : Bool → Nat} (hm : most false ≤ most true)
    (hd : depth false ≤ depth true) :
    (refining most hm).Deeper fun b => inner (most b) (depth b) := by
  generalize hlevels : depth false = levels at hd
  induction levels generalizing depth with
  | zero =>
    refine ⟨fun floor s r hr => ?_, fun s r hr => ?_⟩
    · simp only [hlevels] at hr
      exact absurd hr operation_zero_ne_ok
    · simp only [hlevels] at hr
      exact absurd hr block_zero_ne_ok
  | succ levels ih =>
    obtain ⟨levels', hlevels'⟩ : ∃ k, depth true = k + 1 := ⟨depth true - 1, by omega⟩
    have hinner : (refining most hm).Deeper fun b => inner (most b) (cond b levels' levels) :=
      ih rfl (by dsimp only [cond]; omega)
    obtain rfl := eq_cond_succ hlevels hlevels'
    exact hinner.succ

/-- Other numbers of levels change a result only by being exceeded. -/
theorem deeper_bounding (most depth : Bool → Nat) :
    (bounding most).Deeper fun b => inner (most b) (depth b) := by
  generalize hlevels : depth false = levels
  induction levels generalizing depth with
  | zero =>
    refine ⟨fun floor s r hr => ?_, fun s r hr => ?_⟩
    · simp only [hlevels] at hr
      exact absurd hr operation_zero_ne_ok
    · simp only [hlevels] at hr
      exact absurd hr block_zero_ne_ok
  | succ levels ih =>
    cases hlevels' : depth true with
    | zero =>
      refine ⟨fun floor s r hr => .inr ?_, fun s r hr => .inr ?_⟩
      · simp only [hlevels', inner, operationAt]
        exact ⟨_, rfl, trivial⟩
      · simp only [hlevels', inner, blockAt]
        exact ⟨_, rfl, trivial⟩
    | succ levels' =>
      have hinner : (bounding most).Deeper fun b => inner (most b) (cond b levels' levels) :=
        ih (fun b => cond b levels' levels) rfl
      obtain rfl := eq_cond_succ hlevels hlevels'
      exact hinner.succ

/-- The rules one level deeper are refined by higher ceilings. -/
theorem deeper_higher {l l' : Limits} (hc : l.maxConstants ≤ l'.maxConstants)
    (hd : l.maxDepth ≤ l'.maxDepth) :
    (refining (fun b => (cond b l' l).maxConstants) hc).Deeper
      fun b => inner (cond b l' l).maxConstants (cond b l' l).maxDepth := deeper_refining hc hd

theorem refines_chunk {l l' : Limits} (hc : l.maxConstants ≤ l'.maxConstants)
    (hd : l.maxDepth ≤ l'.maxDepth) : Refines (chunk l) (chunk l') :=
  Law.chunk (deeper_higher hc hd)

end LuaGraph.Chunk.Parse

namespace LuaGraph.Chunk

/-- A text is parsed by a run of the rule for chunks from the start of its tokens. -/
theorem parse_eq_ok_iff {l : Limits} {text : String} {body : List Stat} :
    parse l text = .ok body ↔ ∃ x s, lex text = .ok x ∧
      Parse.chunk l { lexemes := x.lexemes, stop := x.stop } = .ok (body, s) := by
  unfold parse
  cases hlex : lex text with
  | error e => simp [bind, Except.bind]
  | ok x =>
    show (Parse.chunk l { lexemes := x.lexemes, stop := x.stop } >>= fun r => .ok r.1) =
      .ok body ↔ _
    cases hrun : Parse.chunk l { lexemes := x.lexemes, stop := x.stop } with
    | error e => simp [bind, Except.bind, hrun]
    | ok r =>
      obtain ⟨body', s⟩ := r
      simp [bind, Except.bind, hrun]

/-- A text is rejected by the lexer, or by the rule for chunks. -/
theorem parse_eq_error_iff {l : Limits} {text : String} {e : Position × GrammarFault} :
    parse l text = .error e ↔ lex text = .error e ∨ ∃ x, lex text = .ok x ∧
      Parse.chunk l { lexemes := x.lexemes, stop := x.stop } = .error e := by
  unfold parse
  cases hlex : lex text with
  | error e' => simp [bind, Except.bind]
  | ok x =>
    show (Parse.chunk l { lexemes := x.lexemes, stop := x.stop } >>= fun r => .ok r.1) =
      .error e ↔ _
    cases hrun : Parse.chunk l { lexemes := x.lexemes, stop := x.stop } with
    | error e' => simp [bind, Except.bind, hrun]
    | ok r => simp [bind, Except.bind, hrun]

/-- **Higher ceilings do not change what a text is parsed to.** -/
theorem parse_of_parse {l l' : Limits} (hc : l.maxConstants ≤ l'.maxConstants)
    (hd : l.maxDepth ≤ l'.maxDepth) {text : String} {body : List Stat}
    (h : parse l text = .ok body) : parse l' text = .ok body := by
  obtain ⟨x, s, hlex, hrun⟩ := parse_eq_ok_iff.1 h
  exact parse_eq_ok_iff.2 ⟨x, s, hlex, Parse.refines_chunk hc hd _ _ hrun⟩

end LuaGraph.Chunk
