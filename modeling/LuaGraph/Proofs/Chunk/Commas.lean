import LuaGraph.Proofs.Chunk.TwoRuns

/-!
# Commas before closing braces

The last part of a table may have a comma after it, and that changes nothing: two runs of the parser
over tokens that differ in such commas only have the same values under the same ceilings.

* Nearly all rules treat the comma like the closing brace that follows. Those that do not have to
  fail in front of the closing brace, since no expression starts with it (`stuck_operations`).
* Only the rule for tables (`table_constructor`) takes the comma, in a round that the other run does
  not make (`keeps_repeats`).

Headline: **`parse_eq_ok_iff_of_commas`**, for the tokens of any two texts.
-/

namespace LuaGraph.Chunk

namespace Parse

/-! ## Expressions -/

/-- The rules one level deeper are kept, fail in front of a closing brace, and advance. -/
structure Inner.Blind (m : Nat) (i : Inner) : Prop where
  operation : ∀ floor, Keeps (Like true) (Like true) (i.operation floor)
  block : Keeps (Like true) (Like true) i.block
  stuck : ∀ floor, Stuck (i.operation floor)
  advances : (advancing m).Deeper fun _ => i

section

variable {m : Nat} {i : Inner} (h : Inner.Blind m i)
include h

theorem Inner.Blind.expr : Keeps (Like true) (Like true) i.expr := h.operation 0

theorem Inner.Blind.stuck_expr : Stuck i.expr := h.stuck 0

theorem keeps_arguments : Keeps (Like true) (Like true) (arguments i) := by
  unfold arguments
  refine (keeps_accept (by decide)).bind fun closed => ?_
  split
  · exact .pure _
  · refine h.expr.bind fun first => keeps_rounds (f := argumentsRound i) (fun args => ?_)
      (progresses_argumentsRound h.advances) _
    refine keeps_accept_comma (fun b => ?_) fun b => ?_
    · split
      · exact h.expr.bind fun _ => .pure _
      · exact (keeps_expect (by decide)).bind fun _ => .pure _
    · split
      · exact h.stuck_expr.bind
      · exact (Stuck.expect (by decide)).bind

theorem keeps_primary : Keeps (Like true) (Like true) (primary m i) := by
  refine keeps_peek (fun k => ?_) rfl (.faultNear _)
  split
  · refine keeps_advance_loose.bind fun _ => keeps_get (fun s t hst => ?_) fun s => ?_
    · simp only [hst.isLocal_eq]
    · split
      · exact (keeps_addConstant _ _).bind fun _ => .pure _
      · exact .pure _
  · exact keeps_advance_loose.bind fun _ => h.expr.bind fun _ =>
      (keeps_expect (by decide)).bind fun _ => .pure _
  · exact .faultNear _

theorem keeps_suffix (e : Expr) : Keeps (Like true) (Like true) (suffix m i e) := by
  refine keeps_peek (fun k => ?_) rfl (.pure _)
  split
  · exact keeps_advance_loose.bind fun _ => keeps_expectName.bind fun _ =>
      (keeps_addConstant _ _).bind fun _ => .pure _
  · exact keeps_advance_loose.bind fun _ => h.expr.bind fun _ =>
      (keeps_expect (by decide)).bind fun _ => .pure _
  · exact keeps_advance_loose.bind fun _ => (keeps_arguments h).bind fun _ => .pure _
  · exact (Keeps.pure _).aligned

theorem keeps_suffixed : Keeps (Like true) (Like true) (suffixed m i) :=
  (keeps_primary h).bind fun e => keeps_rounds (keeps_suffix h) (progresses_suffix h.advances) e

theorem keeps_part : Keeps (Like false) (Like true) (part m i) := by
  have hitem (k second : Option Token) :
      Keeps (fun s t => Aligned k s t ∧ (s.tokens.drop 1).head? = second) (Like true)
        (do return Part.item (← i.expr)) :=
    Keeps.mono (h.expr.bind fun _ => .pure _) (fun _ _ hst => hst.1.loose) fun _ _ hst => hst
  refine keeps_peekSecond (fun second => keeps_peek_tight fun k => ?_) rfl
  split
  · split
    · rename_i hnamed
      rw [beq_iff_eq.1 hnamed]
      exact (keeps_advance_second (by decide)).bind fun _ =>
        keeps_advance_loose.bind fun _ => (keeps_addConstant _ _).bind fun _ =>
          h.expr.bind fun _ => .pure _
    · exact hitem _ _
  · refine Keeps.mono (P := Aligned _) ?_ (fun _ _ hst => hst.1) fun _ _ hst => hst
    exact keeps_advance_loose.bind fun _ => h.expr.bind fun _ =>
      (keeps_expect (by decide)).bind fun _ =>
        (keeps_expect (by decide)).bind fun _ => h.expr.bind fun _ => .pure _
  · exact hitem _ _

end

/-! ## Tables -/

section

variable {m : Nat} {i : Inner} {parts : List Part} {s s' : State} {x : List Part ⊕ Expr}

/-- In front of a closing brace the table ends. -/
theorem repeats_constructorRound_close {n : Nat} {e : Expr}
    (hs : s.tokens.head? = some (.mark .closeBrace)) :
    Repeats (constructorRound m i) n parts s e s' →
      e = .table parts.reverse ∧ s' = s.past 1 [] := by
  intro h
  cases h with
  | stop hround =>
    rcases constructorRound_eq_ok_iff.1 hround with ⟨-, ⟨⟩, rfl⟩ | ⟨hne, -⟩
    · exact ⟨rfl, rfl⟩
    · exact absurd hs hne
  | next hround _ =>
    rcases constructorRound_eq_ok_iff.1 hround with ⟨-, ⟨⟩, -⟩ | ⟨hne, -⟩
    exact absurd hs hne

/-- In front of the same token a part ends alike. -/
theorem EndsPart.tight {p : Part} {t : State} (h : EndsPart parts p s s' x) (hst : Like false s t) :
    EndsPart parts p t (t.past 1 []) x ∧ Like x.isRight s' (t.past 1 []) := by
  obtain ⟨rfl, hresult⟩ := h
  refine ⟨⟨rfl, by rwa [hst.tokens.head_eq]⟩, ?_⟩
  rcases hresult with ⟨hcomma | hsemicolon, rfl⟩ | ⟨hbrace, rfl⟩
  · exact Aligned.past ⟨hst, hcomma⟩
  · exact Aligned.past ⟨hst, hsemicolon⟩
  · exact Aligned.past ⟨hst, hbrace⟩

variable (h : Inner.Blind m i)
include h

/-- Where a round parses a part, so does the round of the other run, whatever it ends with. -/
theorem exists_part (parts : List Part) {p : Part} {s₁ t : State} (hst : Like false s t)
    (hne : s.tokens.head? ≠ some (.mark .closeBrace)) (hpart : part m i s = .ok (p, s₁)) :
    ∃ t₁, Like true s₁ t₁ ∧ ∀ {x : List Part ⊕ Expr} {t' : State}, EndsPart parts p t₁ t' x →
      constructorRound m i parts t = .ok (x, t') := by
  obtain ⟨t₁, hpart', hst₁⟩ := keeps_part h s t p s₁ hst hpart
  exact ⟨t₁, hst₁, fun hends =>
    constructorRound_eq_ok_iff.2 (.inr ⟨hst.tokens.head_eq ▸ hne, p, t₁, hpart', hends⟩)⟩

/-- **The rounds of a table**, where one of two runs may take a last comma that the other one does
not find. -/
theorem keeps_repeats {n : Nat} {e : Expr} (hn : Repeats (constructorRound m i) n parts s e s') :
    ∀ t, Like false s t →
      ∃ k t', Repeats (constructorRound m i) k parts t e t' ∧ Like true s' t' := by
  induction hn with
  | @stop parts e s s' hlast =>
    intro t hst
    rcases constructorRound_eq_ok_iff.1 hlast with ⟨hbrace, ⟨⟩, rfl⟩ | ⟨hne, p, s₁, hpart, hends⟩
    · have hlast' : constructorRound m i parts t = .ok (.inr (.table parts.reverse), t.past 1 []) :=
        constructorRound_eq_ok_iff.2 (.inl ⟨hst.tokens.head_eq.trans hbrace, rfl, rfl⟩)
      exact ⟨0, _, .stop hlast', Aligned.past ⟨hst, hbrace⟩⟩
    · obtain ⟨t₁, hst₁, hround⟩ := exists_part h parts hst hne hpart
      rcases hst₁.cases with htight | hahead | hahead
      · obtain ⟨hends', hst'⟩ := hends.tight htight
        exact ⟨0, _, .stop (hround hends'), hst'⟩
      · -- the other run takes the comma and then stands before the closing brace
        obtain ⟨rfl, ⟨-, ⟨⟩⟩ | ⟨-, ⟨⟩⟩⟩ := hends
        have hlast' : constructorRound m i (p :: parts) (t₁.past 1 []) =
            .ok (.inr (.table (p :: parts).reverse), (t₁.past 1 []).past 1 []) :=
          constructorRound_eq_ok_iff.2
            (.inl ⟨hahead.past.tokens.head_eq.trans hahead.here, rfl, rfl⟩)
        exact ⟨1, _, .next (hround ⟨rfl, .inl ⟨.inl hahead.there, rfl⟩⟩) (.stop hlast'),
          Aligned.past ⟨hahead.past, hahead.here⟩⟩
      · obtain ⟨-, ⟨-, ⟨⟩⟩ | ⟨hbrace, -⟩⟩ := hends
        cases hahead.there.symm.trans hbrace
  | @next n parts parts' e s s' s'' hnext hrest ih =>
    intro t hst
    rcases constructorRound_eq_ok_iff.1 hnext with ⟨-, ⟨⟩, -⟩ | ⟨hne, p, s₁, hpart, hends⟩
    obtain ⟨t₁, hst₁, hround⟩ := exists_part h parts hst hne hpart
    rcases hst₁.cases with htight | hahead | hahead
    · obtain ⟨hends', hst'⟩ := hends.tight htight
      obtain ⟨k, t', hrest', hst''⟩ := ih _ hst'
      exact ⟨k + 1, t', .next (hround hends') hrest', hst''⟩
    · obtain ⟨-, ⟨hcomma | hsemicolon, -⟩ | ⟨-, ⟨⟩⟩⟩ := hends
      · cases hahead.here.symm.trans hcomma
      · cases hahead.here.symm.trans hsemicolon
    · -- this run takes the comma and ends the table in the next round, the other one ends it here
      obtain ⟨rfl, ⟨-, ⟨⟩⟩ | ⟨-, ⟨⟩⟩⟩ := hends
      have hbrace := hahead.past.tokens.head_eq.trans hahead.here
      obtain ⟨rfl, rfl⟩ := repeats_constructorRound_close hbrace hrest
      exact ⟨0, _, .stop (hround ⟨rfl, .inr ⟨hahead.here, rfl⟩⟩),
        (Aligned.past ⟨hahead.past, hahead.here⟩).symm⟩

theorem keeps_constructor : Keeps (Like false) (Like true) (constructor m i) := by
  have hprogresses := progresses_constructorRound (m := m) h.advances
  intro s t e s' hst hrun
  obtain ⟨n, hn⟩ := (rounds_eq_ok_iff (f := constructorRound m i) hprogresses).1 hrun
  obtain ⟨k, t', hk, hst'⟩ := keeps_repeats h hn t hst
  exact ⟨t', (rounds_eq_ok_iff hprogresses).2 ⟨k, hk⟩, hst'⟩

/-! ## Operators and statements -/

theorem keeps_function : Keeps (Like true) (Like true) (function i) := by
  unfold function
  refine (keeps_expect (by decide)).bind fun _ =>
    (keeps_accept (by decide)).bind fun closed => ?_
  have hbody : Keeps (Like true) (Like true) (do
      openFunction
      let body ← i.block
      closeFunction
      expect (.keyword "end")
      return Expr.function body) :=
    keeps_openFunction.bind fun _ => h.block.bind fun _ => keeps_closeFunction.bind fun _ =>
      (keeps_expect (by decide)).bind fun _ => .pure _
  split
  · exact (Keeps.faultNear _).bind fun _ => hbody
  · exact hbody

theorem keeps_operand : Keeps (Like true) (Like true) (operand m i) := by
  have hconstant {k : Token} (c : Constant) (e : Expr) :
      Keeps (Aligned (some k)) (Like true) (do advance; addConstant m c; return e) :=
    keeps_advance_loose.bind fun _ => (keeps_addConstant m c).bind fun _ => .pure e
  have hother {k : Option Token} : Keeps (Aligned k) (Like true) (suffixed m i) :=
    (keeps_suffixed h).aligned
  unfold operand
  refine keeps_peek (fun k => ?_) rfl (keeps_suffixed h)
  cases k with
  | none => exact hother
  | some k =>
    cases k with
    | integer n => exact hconstant _ _
    | float x => exact hconstant _ _
    | string str => exact hconstant _ _
    | keyword word =>
      dsimp only
      split
      · exact keeps_advance_loose.bind fun _ => .pure _
      split
      · exact keeps_advance_loose.bind fun _ => .pure _
      split
      · exact keeps_advance_loose.bind fun _ => .pure _
      split
      · exact keeps_advance_loose.bind fun _ => keeps_function h
      · exact hother
    | mark k =>
      cases k with
      | openBrace => exact keeps_advance.bind fun _ => keeps_constructor h
      | _ => exact hother
    | _ => exact hother

theorem keeps_operation (floor : Nat) (left : Expr) :
    Keeps (Like true) (Like true) (operation i floor left) := by
  refine keeps_peek (fun k => ?_) rfl (.pure _)
  cases k with
  | none => exact (Keeps.pure _).aligned
  | some k =>
    split
    · split
      · exact (Keeps.pure _).aligned
      · exact keeps_advance_loose.bind fun _ => (h.operation _).bind fun _ => .pure _
    · exact (Keeps.pure _).aligned

theorem keeps_operations (floor : Nat) : Keeps (Like true) (Like true) (operations m i floor) := by
  have hrounds (first : Expr) : Keeps (Like true) (Like true) (rounds (operation i floor) first) :=
    keeps_rounds (keeps_operation h floor) (progresses_operation h.advances floor) first
  refine (keeps_accept (by decide)).bind fun minus => ?_
  split
  · exact ((h.operation _).map _).bind hrounds
  · exact (keeps_operand h).bind hrounds

omit h in
/-- No expression starts with a closing brace. -/
theorem stuck_operations (m : Nat) (i : Inner) (floor : Nat) : Stuck (operations m i floor) := by
  have hprimary : Stuck (primary m i) := by
    intro s r hs hrun
    unfold primary at hrun
    rw [run_bind (run_peek s), hs] at hrun
    cases hrun
  have hoperand : Stuck (operand m i) := by
    intro s r hs hrun
    unfold operand at hrun
    rw [run_bind (run_peek s), hs] at hrun
    exact hprimary.bind s r hs hrun
  intro s r hs hrun
  unfold operations at hrun
  rw [run_bind (run_accept_of_ne (by simp [hs]))] at hrun
  exact hoperand.bind s r hs hrun

theorem keeps_scopedBlock (locals : List String) :
    Keeps (Like true) (Like true) (scopedBlock i locals) :=
  keeps_openScope.bind fun _ => (keeps_declareAll locals).bind fun _ => h.block.bind fun _ =>
    keeps_closeScope.bind fun _ => (keeps_expect (by decide)).bind fun _ => .pure _

theorem keeps_declaration : Keeps (Like true) (Like true) (declaration i) := by
  unfold declaration
  refine keeps_expectName.bind fun name => (keeps_accept (by decide)).bind fun given => ?_
  split
  · exact h.expr.bind fun _ => (keeps_declare _).bind fun _ => .pure _
  · exact (Keeps.pure (P := Like true) Expr.nil).bind fun _ =>
      (keeps_declare _).bind fun _ => .pure _

theorem keeps_loop : Keeps (Like true) (Like true) (loop i) := by
  unfold loop
  have hbody (counter : String) (start limit step : Expr) : Keeps (Like true) (Like true) (do
      expect (.keyword "do")
      return Stat.loop counter start limit step (← scopedBlock i [counter])) :=
    (keeps_expect (by decide)).bind fun _ =>
      (keeps_scopedBlock h _).bind fun _ => .pure _
  have hstuck (counter : String) (start limit step : Expr) : Stuck (do
      expect (.keyword "do")
      return Stat.loop counter start limit step (← scopedBlock i [counter])) :=
    (Stuck.expect (by decide)).bind
  refine keeps_expectName.bind fun counter => (keeps_expect (by decide)).bind fun _ =>
    h.expr.bind fun start => keeps_expect_comma (h.expr.bind fun limit => ?_) h.stuck_expr.bind
  refine keeps_accept_comma (fun b => ?_) fun b => ?_
  · split
    · exact h.expr.bind (hbody counter start limit)
    · exact hbody counter start limit _
  · split
    · exact h.stuck_expr.bind
    · exact hstuck counter start limit _

theorem keeps_assignment : Keeps (Like true) (Like true) (assignment m i) := by
  unfold assignment
  refine (keeps_suffixed h).bind fun target =>
    (keeps_accept (by decide)).bind fun equals => ?_
  have hassign : Keeps (Like true) (Like true) (do return Stat.assign target (← i.expr)) :=
    h.expr.bind fun _ => .pure _
  split
  · split
    · exact (Keeps.fault _).bind fun _ => hassign
    · exact hassign
  · split
    · exact .pure _
    · exact .faultNear _

theorem keeps_statement : Keeps (Like true) (Like true) (statement m i) := by
  refine keeps_peek (fun k => ?_) rfl ((keeps_assignment h).map some)
  split
  · exact keeps_advance_loose.bind fun _ => .pure _
  · exact keeps_advance_loose.bind fun _ => (keeps_declaration h).map some
  · exact keeps_advance_loose.bind fun _ => (keeps_loop h).map some
  · exact keeps_advance_loose.bind fun _ => (keeps_scopedBlock h []).bind fun _ => .pure _
  · exact .faultNear _
  · exact ((keeps_assignment h).map some).aligned

theorem keeps_statements : Keeps (Like true) (Like true) (statements m i) := by
  refine keeps_rounds (f := statementsRound m i) (fun done => ?_)
    (progresses_statementsRound h.advances) []
  have hgoes : Keeps (Like true) (Like true)
      (do return Sum.inl (((← statement m i).toList) ++ done) : Parse (List Stat ⊕ List Stat)) :=
    (keeps_statement h).bind fun _ => .pure _
  refine keeps_peek (fun k => ?_) rfl hgoes
  split
  · exact (Keeps.pure _).aligned
  · exact (Keeps.pure _).aligned
  · exact hgoes.aligned

end

/-! ## Levels -/

/-- The rules are kept at all levels. -/
theorem blind_inner (m levels : Nat) : (inner m levels).Blind m := by
  induction levels with
  | zero =>
    exact ⟨fun _ _ _ _ _ _ hrun => absurd hrun operation_zero_ne_ok,
      fun _ _ _ _ _ hrun => absurd hrun block_zero_ne_ok,
      fun _ _ _ _ hrun => absurd hrun operation_zero_ne_ok, deeper_advancing m 0⟩
  | succ levels ih =>
    refine ⟨fun floor => ?_, ?_, fun floor => ?_, deeper_advancing m (levels + 1)⟩
    · rw [operation_succ]
      exact keeps_operations ih floor
    · rw [block_succ]
      exact keeps_statements ih
    · rw [operation_succ]
      exact stuck_operations m _ floor

theorem keeps_chunk (l : Limits) : Keeps (Like true) (Like true) (chunk l) := by
  refine (keeps_statements (blind_inner l.maxConstants l.maxDepth)).bind fun body =>
    keeps_peek (fun k => ?_) rfl ?_
  · split
    · exact (Keeps.faultNear _).bind fun _ => .pure _
    · exact (Keeps.pure _).aligned
  · exact (Keeps.faultNear (Q := Like true) _).bind fun _ => .pure _

end Parse

/-- Commas before closing braces do not matter to the rule for chunks. -/
theorem chunk_of_commas {x x' : Lexemes} {l : Limits} {body : List Stat} {s : State}
    (h : Commas true (x.lexemes.map Lexeme.token) (x'.lexemes.map Lexeme.token))
    (hrun : Parse.chunk l { lexemes := x.lexemes, stop := x.stop } = .ok (body, s)) :
    ∃ s', Parse.chunk l { lexemes := x'.lexemes, stop := x'.stop } = .ok (body, s') := by
  have hlike : Parse.Like true { lexemes := x.lexemes, stop := x.stop }
      { lexemes := x'.lexemes, stop := x'.stop } := ⟨h, rfl, rfl⟩
  obtain ⟨s', hrun', -⟩ := Parse.keeps_chunk l _ _ body s hlike hrun
  exact ⟨s', hrun'⟩

/-- **Commas before closing braces change nothing**: two texts whose tokens differ in such commas
only are parsed to the same tree, or both are rejected, under all ceilings. -/
theorem parse_eq_ok_iff_of_commas {text text' : String} {x x' : Lexemes} (hx : lex text = .ok x)
    (hx' : lex text' = .ok x')
    (h : Commas true (x.lexemes.map Lexeme.token) (x'.lexemes.map Lexeme.token)) (l : Limits)
    (body : List Stat) : parse l text = .ok body ↔ parse l text' = .ok body := by
  rw [parse_eq_ok_iff, parse_eq_ok_iff]
  constructor
  · rintro ⟨y, s, hy, hrun⟩
    cases hx.symm.trans hy
    obtain ⟨s', hrun'⟩ := chunk_of_commas h hrun
    exact ⟨x', s', hx', hrun'⟩
  · rintro ⟨y, s, hy, hrun⟩
    cases hx'.symm.trans hy
    obtain ⟨s', hrun'⟩ := chunk_of_commas h.symm hrun
    exact ⟨x, s', hx, hrun'⟩

end LuaGraph.Chunk
