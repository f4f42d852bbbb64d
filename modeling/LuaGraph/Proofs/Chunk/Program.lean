import LuaGraph.Proofs.Chunk.Statements

/-!
# Parsing documents

The program of a document is the list of statements that its text is parsed to. A document is
*within* some levels if none of its statements opens more of them, and *counted* up to a ceiling if
each of its functions, the chunk itself included, has no more constants.

Results: `parse_text`, and with it that whatever is accepted of the text of a document is its
program (`eq_program_of_parse`).
-/

namespace LuaGraph

open Chunk

/-! ## Programs -/

namespace Document

/-- The statement in the loop that makes the tables in the slots. -/
def slotStat : Stat := .assign (.index (.name Term.slotTable) (.name "i")) (.table [])

/-- The statements that make the tables in the slots. -/
def preambleStats (slots : Nat) : List Stat :=
  [.declare Term.slotTable (.table []),
    .loop "i" (naturalConstant 1).expr (naturalConstant slots).expr (.number (.integer 1))
      [slotStat]]

/-- The statements of a group of fill statements. -/
def blockStats (split : Bool) (block : List Fill) : List Stat :=
  if split then [.call (.call (.function (block.map Fill.stat)) [])] else block.map Fill.stat

/-- The statements of a document. -/
def program (d : Document) : List Stat :=
  (if d.slots = 0 then [] else preambleStats d.slots) ++ d.blocks.flatMap (blockStats d.split) ++
    d.bindings.map (·.stat d.slots)

/-- The constants of the chunk itself. -/
def constants (d : Document) : List Constant :=
  (if d.slots = 0 then [] else [naturalConstant 1, naturalConstant d.slots]) ++
    (if d.split then [] else d.blocks.flatMap blockConstants) ++
    d.bindings.flatMap Binding.constants

/-- No statement opens more levels than there are. -/
structure Within (levels : Nat) (d : Document) : Prop where
  preamble : d.slots ≠ 0 → 2 ≤ levels
  blocks : d.split = true → d.blocks ≠ [] → 2 ≤ levels
  fills : ∀ block ∈ d.blocks, ∀ f ∈ block, f.height + (if d.split then 2 else 0) ≤ levels
  bindings : ∀ b ∈ d.bindings, b.height ≤ levels

/-- No function has more constants than the ceiling. -/
structure Counted (max : Nat) (d : Document) : Prop where
  chunk : (d.constants.foldl (·.insert ·) (∅ : Constants)).size ≤ max
  blocks : d.split = true → ∀ block ∈ d.blocks,
    ((blockConstants block).foldl (·.insert ·) (∅ : Constants)).size ≤ max

end Document

namespace Chunk.Parse

variable {max levels : Nat} {s s' : State} {ts rest : List Token}

/-! ## Function blocks -/

/-- A function is opened with a frame of its own. -/
def opened (s : State) : State := { s with frame := {}, outer := s.frame :: s.outer }

theorem run_function {inner : Inner} {body : List Stat} {k : Nat} {cs : List Constant}
    (hs : s.tokens = .mark .openParen :: .mark .closeParen :: ts)
    (h : inner.block (opened (s.past 2 [])) = .ok (body, (opened (s.past 2 [])).past k cs))
    (hs' : (s.past (2 + k) []).tokens = .keyword "end" :: rest) :
    function inner s = .ok (.function body, s.past (2 + k + 1) []) := by
  have hs₁ : (s.past 1 []).tokens = .mark .closeParen :: ts := by
    rw [State.tokens_past, hs]
    rfl
  have hopen : openFunction ((s.past 1 []).past 1 []) = .ok ((), opened (s.past 2 [])) := by
    rw [State.past_past]
    rfl
  have hclose : closeFunction ((opened (s.past 2 [])).past k cs) = .ok ((), s.past (2 + k) []) := by
    rw [← List.nil_append ([] : List Constant), ← State.past_past]
    rfl
  unfold function
  rw [run_bind (run_expect hs), run_bind (run_accept hs₁)]
  simp only [Bool.not_true, Bool.false_eq_true, if_false]
  rw [run_bind hopen, run_bind h, run_bind hclose, run_bind (run_expect hs'), State.past_past]
  rfl

/-- A function in parentheses, up to the closing one. -/
theorem run_functionExpr {body : List Stat} {k : Nat} {cs : List Constant}
    (hs : s.tokens = .keyword "function" :: .mark .openParen :: .mark .closeParen :: ts)
    (h : (inner max levels).block (opened (s.past 3 [])) =
      .ok (body, (opened (s.past 3 [])).past k cs))
    (hs' : (s.past (3 + k) []).tokens = .keyword "end" :: .mark .closeParen :: rest) :
    (inner max (levels + 1)).expr s = .ok (.function body, s.past (3 + k + 1) []) := by
  have hthree : 1 + (2 + k) = 3 + k := by omega
  have hfunction : function (inner max levels) (s.past 1 []) =
      .ok (.function body, s.past (3 + k + 1) []) := by
    have := run_function (s := s.past 1 []) (by rw [State.tokens_past, hs]; rfl)
      (by rw [State.past_past]; exact h) (by rw [State.past_past, hthree]; exact hs')
    rwa [State.past_past, ← Nat.add_assoc, hthree] at this
  rw [Inner.expr, operation_succ]
  refine run_operations (by rw [hs]; simp) ?_ ?_
  · unfold operand
    rw [run_bind (run_peek s), hs]
    exact (run_bind (run_advance s)).trans hfunction
  · have hclose : (s.past (3 + k + 1) []).tokens = .mark .closeParen :: rest := by
      rw [State.tokens_past, ← List.drop_drop, ← State.tokens_past s _ [], hs']
      rfl
    rw [hclose]
    exact (closed_mark rfl _).stops 0

theorem isLocal_opened (s : State) (name : String) :
    (opened s).isLocal name = s.isLocal name := by
  simp [State.isLocal, opened]

theorem length_le_flatMap {α β : Type} {f : α → List β} {xs : List α} (h : ∀ x ∈ xs, f x ≠ []) :
    xs.length ≤ (xs.flatMap f).length := by
  induction xs with
  | nil => exact Nat.le_refl _
  | cons x xs ih =>
    have hx := List.length_pos_iff.2 (h x (List.mem_cons_self ..))
    have := ih fun y hy => h y (List.mem_cons_of_mem x hy)
    rw [List.flatMap_cons, List.length_append, List.length_cons]
    omega

theorem tokens_fill_ne_nil (trailing : Bool) (f : Fill) : f.tokens trailing ≠ [] := by
  simp [Fill.tokens]

/-- Statements up to the end of a function. -/
theorem run_fillBlock {n : Nat} {trailing : Bool} {fs : List Fill} (h : ∀ f ∈ fs, f.Writable n)
    (hs : s.tokens = fs.flatMap (·.tokens trailing) ++ .keyword "end" :: rest)
    (hlocal : 0 < n → s.isLocal Term.slotTable = true)
    (hr : s.Room max (Document.blockConstants fs)) (hl : ∀ f ∈ fs, f.height + 1 ≤ levels)
    (hpos : 1 ≤ levels) : (inner max levels).block s =
      .ok (fs.map Fill.stat,
        s.past (fs.flatMap (·.tokens trailing)).length (Document.blockConstants fs)) := by
  obtain ⟨l, rfl⟩ : ∃ l, levels = l + 1 := ⟨levels - 1, by omega⟩
  have hclosed : Closed (.keyword "end" :: rest) := by
    rintro t ⟨⟩
    rfl
  have hl' : ∀ f ∈ fs, f.height ≤ l := fun f hf => Nat.le_of_succ_le_succ (hl f hf)
  have hchain := chain_fills h hs hclosed hlocal hr hl' []
  have hlast := run_statementsRound_last max (inner max l) ((fs.map Fill.stat).reverse ++ [])
    (s := s.past (fs.flatMap (·.tokens trailing)).length (Document.blockConstants fs))
    (.inr (by rw [State.tokens_past_of_eq hs]; rfl))
  have hlength : fs.length ≤ (fs.flatMap (·.tokens trailing)).length :=
    length_le_flatMap fun f _ => tokens_fill_ne_nil trailing f
  rw [block_succ, statements_eq, run_rounds (hchain.repeats hlast)]
  · simp
  · rw [hs, List.length_append]
    omega

/-- A call without arguments. -/
theorem run_suffix_call (max : Nat) (inner : Inner) (e : Expr)
    (hs : s.tokens = .mark .openParen :: .mark .closeParen :: rest) :
    suffix max inner e s = .ok (.inl (.call e []), s.past 2 []) := by
  have hs₁ : (s.past 1 []).tokens = .mark .closeParen :: rest := by
    rw [State.tokens_past, hs]
    rfl
  have harguments : arguments inner (s.past 1 []) = .ok ([], s.past 2 []) := by
    unfold arguments
    rw [run_bind (run_accept hs₁), State.past_past]
    rfl
  exact run_suffix_arguments max hs harguments

theorem run_statement_semicolon (max : Nat) (inner : Inner)
    (hs : s.tokens = .mark .semicolon :: rest) :
    statement max inner s = .ok (none, s.past 1 []) := by
  unfold statement
  rw [run_bind (run_peek s), hs]
  rfl

/-- A block of fill statements is the call of a function, up to the semicolon. -/
theorem run_suffixed_block {n : Nat} {trailing : Bool} {fs : List Fill}
    (h : ∀ f ∈ fs, f.Writable n)
    (hs : s.tokens = .mark .openParen :: .keyword "function" :: .mark .openParen ::
      .mark .closeParen :: (fs.flatMap (·.tokens trailing) ++ .keyword "end" :: .mark .closeParen ::
        .mark .openParen :: .mark .closeParen :: .mark .semicolon :: rest))
    (hlocal : 0 < n → s.isLocal Term.slotTable = true)
    (hr : ((Document.blockConstants fs).foldl (·.insert ·) (∅ : Constants)).size ≤ max)
    (hl : ∀ f ∈ fs, f.height + 2 ≤ levels) (hpos : 2 ≤ levels) :
    suffixed max (inner max levels) s = .ok (.call (.function (fs.map Fill.stat)) [],
      s.past (4 + ((fs.flatMap (·.tokens trailing)).length + 4)) []) := by
  obtain ⟨l, rfl⟩ : ∃ l, levels = l + 1 := ⟨levels - 1, by omega⟩
  have hbody : (s.past 4 []).tokens = fs.flatMap (·.tokens trailing) ++ .keyword "end" ::
      .mark .closeParen :: .mark .openParen :: .mark .closeParen :: .mark .semicolon :: rest := by
    rw [State.tokens_past, hs]
    rfl
  have hblock := run_fillBlock (s := opened (s.past 4 [])) h hbody
    (fun hn => (isLocal_opened _ _).trans (hlocal hn)) hr
    (fun f hf => Nat.le_of_succ_le_succ (hl f hf)) (show 1 ≤ l by omega)
  generalize fs.flatMap (·.tokens trailing) = body at *
  have hend (k : Nat) : (s.past (4 + (body.length + k)) []).tokens =
      (Token.keyword "end" :: .mark .closeParen :: .mark .openParen :: .mark .closeParen ::
        .mark .semicolon :: rest).drop k := by
    rw [State.tokens_past, ← List.drop_drop, ← State.tokens_past s _ [], hbody, ← List.drop_drop,
      List.drop_left]
  have hfour (k : Nat) : 1 + (3 + body.length + k) = 4 + (body.length + k) := by omega
  have hexpr : (inner max (l + 1)).expr (s.past 1 []) =
      .ok (.function (fs.map Fill.stat), s.past (4 + (body.length + 1)) []) := by
    have := run_functionExpr (s := s.past 1 []) (by rw [State.tokens_past, hs]; rfl)
      (by rw [State.past_past]; exact hblock)
      (by rw [State.past_past, ← Nat.add_zero (3 + body.length), hfour 0]; exact hend 0)
    rwa [State.past_past, hfour 1] at this
  have hprimary := run_primary_parenthesised max hs hexpr (hend 1)
  have hcall := run_suffix_call max (inner max (l + 1)) (.function (fs.map Fill.stat)) (hend 2)
  rw [State.past_past] at hprimary hcall
  have hcalled : 1 ≤ (s.past (4 + (body.length + 2)) []).tokens.length := by
    rw [hend 2]
    simp
  exact run_suffixed hprimary (.next hcall .nil) hcalled (hend 4 ▸ closed_mark rfl _)

/-- A block of fill statements is parsed to the call of a function. -/
theorem run_block {n : Nat} {trailing : Bool} {fs : List Fill} (h : ∀ f ∈ fs, f.Writable n)
    (hs : s.tokens = Document.blockTokens trailing true fs ++ rest)
    (hlocal : 0 < n → s.isLocal Term.slotTable = true)
    (hr : ((Document.blockConstants fs).foldl (·.insert ·) (∅ : Constants)).size ≤ max)
    (hl : ∀ f ∈ fs, f.height + 2 ≤ levels) (hpos : 2 ≤ levels) (done : List Stat) :
    Chain (statementsRound max (inner max levels)) 2 done s
      ((Document.blockStats true fs).reverse ++ done)
      (s.past (Document.blockTokens trailing true fs).length []) := by
  have hs₀ : s.tokens = .mark .openParen :: .keyword "function" :: .mark .openParen ::
      .mark .closeParen :: (fs.flatMap (·.tokens trailing) ++ .keyword "end" :: .mark .closeParen ::
        .mark .openParen :: .mark .closeParen :: .mark .semicolon :: rest) := by
    rw [hs, Document.blockTokens, if_pos rfl]
    simp
  have hlength : (Document.blockTokens trailing true fs).length =
      4 + ((fs.flatMap (·.tokens trailing)).length + 4) + 1 := by
    simp [Document.blockTokens]
    omega
  have hsuffixed := run_suffixed_block h hs₀ hlocal hr hl hpos
  generalize 4 + ((fs.flatMap (·.tokens trailing)).length + 4) = k at *
  have hsemicolon : (s.past k []).tokens = .mark .semicolon :: rest := by
    obtain ⟨call, hcall⟩ :
        ∃ call, Document.blockTokens trailing true fs = call ++ [.mark .semicolon] :=
      ⟨.mark .openParen :: .keyword "function" :: .mark .openParen :: .mark .closeParen ::
        (fs.flatMap (·.tokens trailing) ++
          [.keyword "end", .mark .closeParen, .mark .openParen, .mark .closeParen]),
        by simp [Document.blockTokens]⟩
    obtain rfl : call.length = k := by
      rw [hcall, List.length_append] at hlength
      exact Nat.succ.inj hlength
    rw [State.tokens_past, hs, hcall, List.append_assoc, List.drop_left]
    rfl
  have hstat := run_statement (.inr (by rw [hs₀]; rfl))
    (run_assignment_call hsuffixed (by rw [hsemicolon]; simp) rfl)
  have hcalled := run_statementsRound done hs₀ (by simp) hstat
  have hempty := run_statementsRound (.call (.call (.function (fs.map Fill.stat)) []) :: done)
    hsemicolon (by simp) (run_statement_semicolon max (inner max levels) hsemicolon)
  rw [State.past_past] at hempty
  rw [hlength]
  exact .next hcalled (.next hempty .nil)

/-! ## The tables in the slots -/

/-- The state with other names in scope. -/
def inScopes (s : State) (scopes : List (List String)) : State := { s with frame.scopes := scopes }

theorem isLocal_inScopes {scopes : List (List String)} {name : String}
    (h : scopes.any (·.contains name) = true) : (inScopes s scopes).isLocal name = true := by
  simp only [State.isLocal, List.any_cons, inScopes, h, Bool.true_or]

/-- A table without fields. -/
theorem run_table (hs : s.tokens = .mark .openBrace :: .mark .closeBrace :: rest)
    (hclosed : Closed rest) (hr : s.Room max []) (hl : 1 ≤ levels) :
    (inner max levels).expr s = .ok (.table [], s.past 2 []) :=
  run_term 0 false (.table []) trivial 0 hs hclosed (fun h => absurd h (Nat.lt_irrefl 0)) hr hl

/-- The name of a local variable as an expression. -/
theorem run_local {name : String} (hs : s.tokens = .name name :: rest)
    (hlocal : s.isLocal name = true) (hclosed : Closed rest) :
    (inner max (levels + 1)).expr s = .ok (.name name, s.past 1 []) := by
  have hrest : (s.past 1 []).tokens = rest := by
    rw [State.tokens_past, hs]
    rfl
  have hsuffixed : suffixed max (inner max levels) s = .ok (.name name, s.past 1 []) :=
    run_suffixed (run_primary_local hs hlocal) .nil (Nat.zero_le _) (hrest ▸ hclosed)
  exact run_operation_suffixed (.inl ⟨name, by rw [hs]; rfl⟩) hsuffixed
    ((hrest ▸ hclosed : Closed (s.past 1 []).tokens).stops 0)

/-- The statement in the loop makes a table in a slot. -/
theorem run_slotStat (hs : s.tokens = (Document.preambleTokens 0).drop 12 ++ rest)
    (href : s.isLocal Term.slotTable = true) (hi : s.isLocal "i" = true) (hr : s.Room max [])
    (hl : 1 ≤ levels) :
    statement max (inner max levels) s = .ok (some Document.slotStat, s.past 7 []) := by
  obtain ⟨l, rfl⟩ : ∃ l, levels = l + 1 := ⟨levels - 1, by omega⟩
  have hdrop (k : Nat) : (s.past k []).tokens =
      ((Document.preambleTokens 0).drop 12 ++ rest).drop k := by
    rw [State.tokens_past, hs]
  have hindex : (inner max (l + 1)).expr (s.past 2 []) = .ok (.name "i", s.past 3 []) := by
    rw [run_local (hdrop 2) hi (closed_mark rfl _), State.past_past]
    rfl
  have hsuffix := run_suffix_bracket max (e := .name Term.slotTable) (s := s.past 1 []) (hdrop 1)
    (by rw [State.past_past]; exact hindex) (hdrop 3)
  rw [State.past_past] at hsuffix
  have hsuffixed := run_suffixed (run_primary_local hs href) (.next hsuffix .nil)
    (by rw [hdrop]; simp [Document.preambleTokens]) (hdrop 4 ▸ closed_mark rfl _)
  have hend : Closed (.keyword "end" :: rest) := by
    rintro t ⟨⟩
    rfl
  have hvalue := run_table (s := s.past 5 []) (hdrop 5) hend hr (Nat.le_add_left 1 l)
  rw [State.past_past] at hvalue
  exact run_statement (.inl ⟨Term.slotTable, by rw [hs]; rfl⟩)
    (run_assignment hsuffixed (hdrop 4) rfl (by rw [State.past_past]; exact hvalue))

/-- The table of slots is declared. -/
theorem run_slotDeclaration {n : Nat} (hs : s.tokens = Document.preambleTokens n ++ rest)
    (hscopes : s.frame.scopes = [[]]) (hr : s.Room max []) (hl : 1 ≤ levels) :
    statement max (inner max levels) s = .ok (some (.declare Term.slotTable (.table [])),
      inScopes (s.past 5 []) [[Term.slotTable]]) := by
  have hdrop (k : Nat) : (s.past k []).tokens = (Document.preambleTokens n ++ rest).drop k := by
    rw [State.tokens_past, hs]
  have hvalue : (inner max levels).expr (s.past 3 []) = .ok (.table [], s.past 5 []) := by
    have := run_table (s := s.past 3 []) (hdrop 3) (by rintro t ⟨⟩; rfl) hr hl
    rwa [State.past_past] at this
  have hdeclare : Parse.declare Term.slotTable (s.past 5 []) =
      .ok ((), inScopes (s.past 5 []) [[Term.slotTable]]) := by
    have hpast : (s.past 5 []).frame.scopes = [[]] := hscopes
    generalize s.past 5 [] = t at hpast
    cases t with | mk lexemes stop frame outer => cases frame with | mk constants scopes =>
    obtain rfl : scopes = [[]] := hpast
    rfl
  have hdeclaration : declaration (inner max levels) (s.past 1 []) =
      .ok (.declare Term.slotTable (.table []), inScopes (s.past 5 []) [[Term.slotTable]]) := by
    unfold declaration
    rw [run_bind (expectName_past (hdrop 1)), run_bind (accept_past (hdrop 2))]
    simp only [if_true]
    rw [run_bind hvalue, run_bind hdeclare]
    rfl
  unfold statement
  rw [run_bind (run_peek s), hs]
  simp only [Document.preambleTokens, List.cons_append, List.head?_cons]
  rw [run_bind (run_advance s)]
  exact run_map hdeclaration

/-- The body of the loop, in a scope with its counter. -/
theorem run_slotBody (hs : s.tokens = (Document.preambleTokens 0).drop 12 ++ rest)
    (href : s.frame.scopes.any (·.contains Term.slotTable) = true) (hr : s.Room max [])
    (hl : 2 ≤ levels) :
    scopedBlock (inner max levels) ["i"] s = .ok ([Document.slotStat], s.past 8 []) := by
  obtain ⟨l, rfl⟩ : ∃ l, levels = l + 1 := ⟨levels - 1, by omega⟩
  have hend : (s.past 7 []).tokens = .keyword "end" :: rest := by
    rw [State.tokens_past, hs]
    rfl
  generalize hscopes : ["i"] :: s.frame.scopes = scopes
  have hi : (inScopes s scopes).isLocal "i" = true :=
    isLocal_inScopes (by rw [← hscopes]; simp)
  have href' : (inScopes s scopes).isLocal Term.slotTable = true :=
    isLocal_inScopes (by rw [← hscopes, List.any_cons, href, Bool.or_true])
  have hstat : statement max (inner max l) (inScopes s scopes) =
      .ok (some Document.slotStat, inScopes (s.past 7 []) scopes) :=
    run_slotStat hs href' hi hr (show 1 ≤ l by omega)
  have hround := run_statementsRound [] (s := inScopes s scopes) hs (by simp) hstat
  have hlast := run_statementsRound_last max (inner max l) [Document.slotStat]
    (s := inScopes (s.past 7 []) scopes) (.inr (congrArg List.head? hend))
  have hblock : (inner max (l + 1)).block (inScopes s scopes) =
      .ok ([Document.slotStat], inScopes (s.past 7 []) scopes) := by
    rw [block_succ, statements_eq]
    refine run_rounds (.next hround (.stop hlast)) ?_
    show 1 ≤ s.tokens.length
    rw [hs]
    simp [Document.preambleTokens]
  have hopen : openScope s = .ok ((), inScopes s ([] :: s.frame.scopes)) := rfl
  have hdeclare : ["i"].forM declare (inScopes s ([] :: s.frame.scopes)) =
      .ok ((), inScopes s scopes) := by
    rw [← hscopes]
    rfl
  have hclose : closeScope (inScopes (s.past 7 []) scopes) = .ok ((), s.past 7 []) := by
    rw [← hscopes]
    rfl
  unfold scopedBlock
  rw [run_bind hopen, run_bind hdeclare, run_bind hblock, run_bind hclose,
    run_bind (expect_past hend)]
  rfl

/-- The loop makes the tables in the slots. -/
theorem run_slotLoop {n : Nat} (hs : s.tokens = (Document.preambleTokens n).drop 5 ++ rest)
    (href : s.frame.scopes.any (·.contains Term.slotTable) = true)
    (hr : s.Room max [naturalConstant 1, naturalConstant n]) (hl : 2 ≤ levels) :
    statement max (inner max levels) s =
      .ok (some (.loop "i" (naturalConstant 1).expr (naturalConstant n).expr
        (.number (.integer 1)) [Document.slotStat]),
        s.past 15 [naturalConstant 1, naturalConstant n]) := by
  have hdrop (k : Nat) (cs : List Constant) :
      (s.past k cs).tokens = ((Document.preambleTokens n).drop 5 ++ rest).drop k := by
    rw [State.tokens_past, hs]
  have hone : s.Room max [naturalConstant 1] := hr.left
  have hlevel : 1 ≤ levels := Nat.le_of_succ_le hl
  have hcomma (ts : List Token) : Closed (.mark .comma :: ts) := closed_mark rfl ts
  have hdo (ts : List Token) : Closed (.keyword "do" :: ts) := by
    rintro t ⟨⟩
    rfl
  have hstart : (inner max levels).expr (s.past 3 []) =
      .ok ((naturalConstant 1).expr, s.past 4 [naturalConstant 1]) := by
    have := run_token (c := naturalConstant 1) (s := s.past 3 []) (hdrop 3 [])
      (State.room_past.2 hone) ((hcomma _).stops 0) hlevel
    rwa [State.past_past] at this
  generalize hcs : [naturalConstant 1, naturalConstant n] = cs at hr ⊢
  have hlimit : (inner max levels).expr (s.past 5 [naturalConstant 1]) =
      .ok ((naturalConstant n).expr, s.past 6 cs) := by
    have := run_token (c := naturalConstant n) (s := s.past 5 [naturalConstant 1]) (hdrop 5 _)
      (State.room_past.2 (hcs ▸ hr)) ((hdo _).stops 0) hlevel
    rw [State.past_past] at this
    rw [← hcs]
    exact this
  have hroom : (s.past 7 cs).Room max [] := State.room_past.2 (by rwa [List.append_nil])
  have hbody := run_slotBody (hdrop 7 cs) href hroom hl
  rw [State.past_past, List.append_nil] at hbody
  have hloop : loop (inner max levels) (s.past 1 []) =
      .ok (.loop "i" (naturalConstant 1).expr (naturalConstant n).expr (.number (.integer 1))
        [Document.slotStat], s.past 15 cs) := by
    unfold loop
    rw [run_bind (expectName_past (hdrop 1 [])), run_bind (expect_past (hdrop 2 [])),
      run_bind hstart, run_bind (expect_past (hdrop 4 [naturalConstant 1])), run_bind hlimit,
      run_bind (run_accept_of_ne (by rw [hdrop]; simp [Document.preambleTokens]))]
    simp only [Bool.false_eq_true, if_false]
    rw [pure_bind, run_bind (expect_past (hdrop 6 cs)), run_bind hbody]
    rfl
  unfold statement
  rw [run_bind (run_peek s), hs]
  simp only [Document.preambleTokens, List.drop_succ_cons, List.drop_zero, List.cons_append,
    List.head?_cons]
  rw [run_bind (run_advance s)]
  exact run_map hloop

/-! ## Documents -/

theorem closed_bindings {trailing : Bool} {n : Nat} (bs : List Binding) :
    Closed (bs.flatMap (·.tokens trailing n)) := by
  cases bs with
  | nil => simp [Closed]
  | cons b bs =>
    rw [List.flatMap_cons, Binding.tokens]
    cases b.globalName? n <;> (rintro t ⟨⟩; rfl)

/-- The tables in the slots are made at first, if there are any. -/
theorem chain_preamble {n : Nat}
    (hs : s.tokens = (if n = 0 then [] else Document.preambleTokens n) ++ rest)
    (hscopes : s.frame.scopes = [[]]) (hl : n ≠ 0 → 2 ≤ levels)
    (hr : s.Room max (if n = 0 then [] else [naturalConstant 1, naturalConstant n])) :
    ∃ k ≤ (if n = 0 then [] else Document.preambleTokens n).length,
      Chain (statementsRound max (inner max levels)) k [] s
        ((if n = 0 then [] else Document.preambleStats n).reverse ++ [])
        (inScopes (s.past (if n = 0 then [] else Document.preambleTokens n).length
          (if n = 0 then [] else [naturalConstant 1, naturalConstant n]))
          [if n = 0 then [] else [Term.slotTable]]) := by
  by_cases hn : n = 0
  · simp only [if_pos hn] at *
    refine ⟨0, Nat.le_refl _, ?_⟩
    have : inScopes (s.past 0 []) [[]] = s := by
      rw [State.past_zero, inScopes, ← hscopes]
    exact this ▸ .nil
  · simp only [if_neg hn] at *
    have hroom : s.Room max [] := hr.left
    have hdeclare := run_slotDeclaration hs hscopes hroom
      (Nat.le_of_succ_le (hl hn))
    have hs₁ : (inScopes (s.past 5 []) [[Term.slotTable]]).tokens =
        (Document.preambleTokens n).drop 5 ++ rest := by
      show (s.past 5 []).tokens = _
      rw [State.tokens_past, hs]
      rfl
    have hroom₁ : (inScopes (s.past 5 []) [[Term.slotTable]]).Room max
        [naturalConstant 1, naturalConstant n] := hr
    have hloop := run_slotLoop hs₁ rfl hroom₁ (hl hn)
    have h₁ := run_statementsRound [] hs (by simp) hdeclare
    have h₂ := run_statementsRound [.declare Term.slotTable (.table [])] hs₁ (by simp) hloop
    refine ⟨2, by simp [Document.preambleTokens], .next h₁ (.next h₂ ?_)⟩
    have : (inScopes (s.past 5 []) [[Term.slotTable]]).past 15
        [naturalConstant 1, naturalConstant n] =
          inScopes (s.past 20 [naturalConstant 1, naturalConstant n]) [[Term.slotTable]] := by
      rw [show (20 : Nat) = 5 + 15 from rfl, ← List.nil_append [naturalConstant 1, _],
        ← State.past_past]
      rfl
    rw [this]
    exact .nil

/-- Groups of fill statements in functions of their own, none of which adds to the constants. -/
theorem chain_functions {n : Nat} {trailing : Bool} {blocks : List (List Fill)}
    (h : ∀ block ∈ blocks, ∀ f ∈ block, f.Writable n)
    (hs : s.tokens = blocks.flatMap (Document.blockTokens trailing true) ++ rest)
    (hlocal : 0 < n → s.isLocal Term.slotTable = true)
    (hblocks : ∀ block ∈ blocks,
      ((Document.blockConstants block).foldl (·.insert ·) (∅ : Constants)).size ≤ max)
    (hpos : blocks ≠ [] → 2 ≤ levels)
    (hl : ∀ block ∈ blocks, ∀ f ∈ block, f.height + 2 ≤ levels) (done : List Stat) :
    ∃ k ≤ (blocks.flatMap (Document.blockTokens trailing true)).length,
      Chain (statementsRound max (inner max levels)) k done s
        ((blocks.flatMap (Document.blockStats true)).reverse ++ done)
        (s.past (blocks.flatMap (Document.blockTokens trailing true)).length []) := by
  induction blocks generalizing s done with
  | nil => exact ⟨0, Nat.le_refl _, .nil⟩
  | cons block blocks ih =>
    rw [List.flatMap_cons, List.append_assoc] at hs
    have hblock := run_block (h block (List.mem_cons_self ..)) hs hlocal
      (hblocks block (List.mem_cons_self ..)) (hl block (List.mem_cons_self ..))
      (hpos (List.cons_ne_nil _ _)) done
    have hrest := State.tokens_past_of_eq hs []
    obtain ⟨k, hk, hchain⟩ := ih (s := s.past (Document.blockTokens trailing true block).length [])
      (fun b hb => h b (List.mem_cons_of_mem _ hb)) hrest hlocal
      (fun b hb => hblocks b (List.mem_cons_of_mem _ hb))
      (fun _ => hpos (List.cons_ne_nil _ _)) (fun b hb => hl b (List.mem_cons_of_mem _ hb))
      ((Document.blockStats true block).reverse ++ done)
    have hlength : 2 ≤ (Document.blockTokens trailing true block).length := by
      simp [Document.blockTokens]
    refine ⟨2 + k, ?_, ?_⟩
    · rw [List.flatMap_cons, List.length_append]
      omega
    · have := hblock.append hchain
      simpa [List.flatMap_cons] using this

/-- The groups of fill statements come next. -/
theorem chain_blocks {n : Nat} {trailing split : Bool} {blocks : List (List Fill)}
    (h : ∀ block ∈ blocks, ∀ f ∈ block, f.Writable n)
    (hs : s.tokens = blocks.flatMap (Document.blockTokens trailing split) ++ rest)
    (hclosed : Closed rest) (hlocal : 0 < n → s.isLocal Term.slotTable = true)
    (hr : s.Room max (if split then [] else blocks.flatMap Document.blockConstants))
    (hblocks : split = true → ∀ block ∈ blocks,
      ((Document.blockConstants block).foldl (·.insert ·) (∅ : Constants)).size ≤ max)
    (hpos : split = true → blocks ≠ [] → 2 ≤ levels)
    (hl : ∀ block ∈ blocks, ∀ f ∈ block, f.height + (if split then 2 else 0) ≤ levels)
    (done : List Stat) :
    ∃ k ≤ (blocks.flatMap (Document.blockTokens trailing split)).length,
      Chain (statementsRound max (inner max levels)) k done s
        ((blocks.flatMap (Document.blockStats split)).reverse ++ done)
        (s.past (blocks.flatMap (Document.blockTokens trailing split)).length
          (if split then [] else blocks.flatMap Document.blockConstants)) := by
  cases split with
  | false =>
    have htokens : blocks.flatMap (Document.blockTokens trailing false) =
        blocks.flatten.flatMap (·.tokens trailing) := by
      rw [← List.flatMap_id, List.flatMap_assoc]
      rfl
    have hconstants : blocks.flatMap Document.blockConstants =
        Document.blockConstants blocks.flatten := by
      rw [Document.blockConstants, ← List.flatMap_id, List.flatMap_assoc]
      rfl
    have hstats : blocks.flatMap (Document.blockStats false) = blocks.flatten.map Fill.stat := by
      rw [List.map_flatten]
      rfl
    rw [htokens] at hs ⊢
    simp only [Bool.false_eq_true, if_false, hconstants, hstats] at hr ⊢
    refine ⟨_, length_le_flatMap fun f _ => tokens_fill_ne_nil trailing f,
      chain_fills ?_ hs hclosed hlocal hr ?_ done⟩
    · intro f hf
      obtain ⟨block, hb, hf⟩ := List.mem_flatten.1 hf
      exact h block hb f hf
    · intro f hf
      obtain ⟨block, hb, hf⟩ := List.mem_flatten.1 hf
      exact hl block hb f hf
  | true => exact chain_functions h hs hlocal (hblocks rfl) (hpos rfl) hl done

/-- The table of slots is the only local variable, if there are slots. -/
theorem isLocal_slotScope {n : Nat} {name : String} (houter : s.outer = []) :
    (inScopes s [if n = 0 then [] else [Term.slotTable]]).isLocal name = true ↔
      0 < n ∧ name = Term.slotTable := by
  simp only [State.isLocal, inScopes, houter, List.any_cons, List.any_nil, Bool.or_false]
  by_cases hn : n = 0
  · simp [hn]
  · simp [hn, Nat.pos_of_ne_zero hn]

/-- All the statements of a document, from the start of a chunk. -/
theorem run_document {d : Document} {trailing : Bool} (h : d.Writable) (hw : d.Within levels)
    (hc : d.Counted max) (hs : s.tokens = d.tokens trailing) (hframe : s.frame = {})
    (houter : s.outer = []) : ∃ s', s'.tokens = [] ∧
      statements max (inner max levels) s = .ok (d.program, s') := by
  have hroom : s.Room max d.constants := by
    unfold State.Room State.past
    rw [hframe]
    exact hc.chunk
  unfold Document.constants at hroom
  rw [List.append_assoc] at hroom
  rw [Document.tokens, List.append_assoc] at hs
  obtain ⟨k₁, hk₁, h₁⟩ := chain_preamble hs (by rw [hframe]) hw.preamble hroom.left
  generalize hpre : (if d.slots = 0 then [] else Document.preambleTokens d.slots) = pre at *
  generalize hcs : (if d.slots = 0 then [] else [naturalConstant 1, naturalConstant d.slots]) =
    cs at *
  generalize hs₁ : inScopes (s.past pre.length cs) [if d.slots = 0 then [] else [Term.slotTable]] =
    s₁ at *
  have htokens₁ : s₁.tokens = d.blocks.flatMap (Document.blockTokens trailing d.split) ++
      d.bindings.flatMap (·.tokens trailing d.slots) := by
    rw [← hs₁]
    exact State.tokens_past_of_eq hs cs
  have hroom₁ : s₁.Room max ((if d.split then [] else d.blocks.flatMap Document.blockConstants) ++
      d.bindings.flatMap Binding.constants) := by
    have : (s.past pre.length cs).Room max _ := State.room_past.2 hroom
    rw [← hs₁]
    exact this
  have hlocal (name : String) : s₁.isLocal name = true ↔ 0 < d.slots ∧ name = Term.slotTable := by
    rw [← hs₁]
    exact isLocal_slotScope houter
  have hslots (hn : 0 < d.slots) : s₁.isLocal Term.slotTable = true := (hlocal _).2 ⟨hn, rfl⟩
  obtain ⟨k₂, hk₂, h₂⟩ := chain_blocks h.fills htokens₁ (closed_bindings _) hslots hroom₁.left
    hc.blocks hw.blocks hw.fills
    ((if d.slots = 0 then [] else Document.preambleStats d.slots).reverse ++ [])
  have htokens₂ := State.tokens_past_of_eq htokens₁
    (if d.split then [] else d.blocks.flatMap Document.blockConstants)
  generalize hs₂ : State.past s₁ _ _ = s₂ at h₂ htokens₂
  have hlocal₂ (name : String) : s₂.isLocal name = s₁.isLocal name := by
    rw [← hs₂, State.isLocal_past]
  have hroom₂ : s₂.Room max (d.bindings.flatMap Binding.constants) := by
    rw [← hs₂]
    exact State.room_past.2 hroom₁
  rw [← List.append_nil (d.bindings.flatMap _)] at htokens₂
  have h₃ := chain_bindings h.bindings htokens₂ (by simp [Closed])
    (fun hn => (hlocal₂ _).trans (hslots hn))
    (fun name hname => (hlocal name).1 ((hlocal₂ name).symm.trans hname)) hroom₂ hw.bindings
    ((d.blocks.flatMap (Document.blockStats d.split)).reverse ++
      ((if d.slots = 0 then [] else Document.preambleStats d.slots).reverse ++ []))
  have hchain := h₁.append (h₂.append h₃)
  generalize hend : State.past _ _ _ = s₃ at hchain
  have htokens₃ : s₃.tokens = [] := by
    rw [← hend]
    exact State.tokens_past_of_eq htokens₂ _
  have hlast := run_statementsRound_last max (inner max levels)
    ((d.bindings.map (·.stat d.slots)).reverse ++
      ((d.blocks.flatMap (Document.blockStats d.split)).reverse ++
        ((if d.slots = 0 then [] else Document.preambleStats d.slots).reverse ++ [])))
    (s := s₃) (.inl (by rw [htokens₃]; rfl))
  refine ⟨s₃, htokens₃, ?_⟩
  rw [statements_eq, run_rounds (hchain.repeats hlast)]
  · simp [Document.program]
  · have hk₃ : d.bindings.length ≤ (d.bindings.flatMap (·.tokens trailing d.slots)).length :=
      length_le_flatMap fun b _ => by simp [Binding.tokens]
    rw [hs, List.length_append, List.length_append]
    omega

/-- Statements up to the last token are a chunk. -/
theorem run_chunk {limits : Limits} {body : List Stat}
    (h : statements limits.maxConstants (inner limits.maxConstants limits.maxDepth) s =
      .ok (body, s')) (hs' : s'.tokens = []) : chunk limits s = .ok (body, s') := by
  unfold chunk
  rw [run_bind h, run_bind (run_peek s'), hs']
  rfl

end Chunk.Parse

/-! ## Texts -/

namespace Chunk

open Parse

variable {d : Document} {limits : Limits}

/-- **The text of a document is parsed to its program.** -/
theorem parse_text (layout : Layout) (h : d.Writable) (hw : d.Within limits.maxDepth)
    (hc : d.Counted limits.maxConstants) : parse limits (d.text layout) = .ok d.program := by
  obtain ⟨lexemes, stop, hlex, htokens⟩ := lexFrom_of_spells (spells_text layout h) {} #[]
  obtain ⟨s', hs', hrun⟩ := run_document (s := { lexemes, stop }) h hw hc htokens rfl rfl
  exact parse_eq_ok_iff.2 ⟨⟨lexemes, stop⟩, s', hlex, run_chunk hrun hs'⟩

theorem exists_bound {α : Type} (f : α → Nat) (xs : List α) : ∃ m, ∀ x ∈ xs, f x ≤ m := by
  induction xs with
  | nil => exact ⟨0, fun x hx => absurd hx List.not_mem_nil⟩
  | cons x xs ih =>
    obtain ⟨m, hm⟩ := ih
    refine ⟨max (f x) m, fun y hy => ?_⟩
    rcases List.mem_cons.1 hy with rfl | hy
    · exact Nat.le_max_left _ _
    · exact Nat.le_trans (hm y hy) (Nat.le_max_right _ _)

/-- A document is within some levels and counted up to some ceiling. -/
theorem exists_limits (limits : Limits) (d : Document) : ∃ l : Limits,
    limits.maxConstants ≤ l.maxConstants ∧ limits.maxDepth ≤ l.maxDepth ∧
      d.Within l.maxDepth ∧ d.Counted l.maxConstants := by
  obtain ⟨m₁, h₁⟩ := exists_bound Fill.height d.blocks.flatten
  obtain ⟨m₂, h₂⟩ := exists_bound Binding.height d.bindings
  obtain ⟨m₃, h₃⟩ := exists_bound (fun block => ((Document.blockConstants block).foldl (·.insert ·)
    (∅ : Constants)).size) d.blocks
  refine ⟨⟨limits.maxConstants + (d.constants.foldl (·.insert ·) (∅ : Constants)).size + m₃,
    limits.maxDepth + m₁ + m₂ + 2⟩, ?_, ?_, ⟨?_, ?_, ?_, ?_⟩, ⟨?_, ?_⟩⟩ <;> dsimp only
  · omega
  · omega
  · omega
  · omega
  · intro block hb f hf
    have := h₁ f (List.mem_flatten.2 ⟨block, hb, hf⟩)
    split <;> omega
  · intro b hb
    have := h₂ b hb
    omega
  · omega
  · intro _ block hb
    have := h₃ block hb
    omega

/-- **What is accepted of the text of a document is its program**, whatever the ceilings. -/
theorem eq_program_of_parse (layout : Layout) (h : d.Writable) {body : List Stat}
    (hp : parse limits (d.text layout) = .ok body) : body = d.program := by
  obtain ⟨l, hc, hd, hwithin, hcounted⟩ := exists_limits limits d
  have := (parse_of_parse hc hd hp).symm.trans (parse_text layout h hwithin hcounted)
  exact Except.ok.inj this

end Chunk

end LuaGraph
