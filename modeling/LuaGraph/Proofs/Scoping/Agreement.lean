import LuaGraph.Proofs.Scoping.Lockstep

/-!
# What the parser notes

Each rule with notes is in lockstep with the rule without, if it is so one level deeper. A rule for
expressions leaves the scopes as they were (`ReadExpr`). After statements the innermost scope has
the names that they declare, too (`ReadBody`).

Results: `map_eraseBody_parse`, a text is parsed with notes as it is without, and
`resolved_of_parse`, the notes are right.
-/

namespace LuaGraph.Chunk.Noted

open Parse (statement_eq)

/-! ## What is read -/

section

variable (N : Scopes)

/-- An expression is read. -/
def ReadExpr : Expr → Chunk.Expr → Scopes → Prop := Kept N Expr.erase (Expr.Resolved N.flatten)

/-- Arguments are read. -/
def ReadArgs : List Expr → List Chunk.Expr → Scopes → Prop :=
  Kept N (List.map Expr.erase) (∀ e ∈ ·, e.Resolved N.flatten)

/-- A part is read. -/
def ReadPart : Part → Chunk.Part → Scopes → Prop := Kept N Part.erase (Part.Resolved N.flatten)

/-- Parts are read. -/
def ReadParts : List Part → List Chunk.Part → Scopes → Prop :=
  Kept N (List.map Part.erase) (∀ p ∈ ·, p.Resolved N.flatten)

end

section

variable (scope : List String) (Γ : List (List String)) (M : Scopes)

/-- A statement is read in a block with this scope. -/
def ReadStat (x : Stat) (a : Chunk.Stat) (N' : Scopes) : Prop :=
  N' = ((x.names ++ scope) :: Γ) :: M ∧ x.erase = a ∧ x.Resolved (scope :: (Γ ++ M.flatten))

/-- A statement is read, or none. -/
def ReadStat? (x : Option Stat) (a : Option Chunk.Stat) (N' : Scopes) : Prop :=
  N' = (scopeAfter scope x.toList :: Γ) :: M ∧ x.map Stat.erase = a ∧
    BodyResolved scope (Γ ++ M.flatten) x.toList

/-- Statements have been read, the last one first. -/
def ReadDone (xs : List Stat) (as : List Chunk.Stat) (N' : Scopes) : Prop :=
  N' = (scopeAfter scope xs.reverse :: Γ) :: M ∧ xs.map Stat.erase = as ∧
    BodyResolved scope (Γ ++ M.flatten) xs.reverse

/-- Statements are read in a block with this scope. -/
def ReadBody (xs : List Stat) (as : List Chunk.Stat) (N' : Scopes) : Prop :=
  N' = (scopeAfter scope xs :: Γ) :: M ∧ eraseBody xs = as ∧ BodyResolved scope (Γ ++ M.flatten) xs

end

/-- One level deeper the rules with notes are in lockstep with those without. -/
structure Deeper (i' : Inner) (i : Parse.Inner) : Prop where
  operation : ∀ N floor, Lockstep N (i'.operation floor) (i.operation floor) (ReadExpr N)
  block : ∀ scope Γ M,
    Lockstep ((scope :: Γ) :: M) i'.block i.block (ReadBody scope Γ M)

namespace Deeper

variable {i' : Inner} {i : Parse.Inner} (h : Deeper i' i) (max : Nat) (N : Scopes)
include h

theorem expr : Lockstep N i'.expr i.expr (ReadExpr N) := h.operation N 0

/-! ## Expressions -/

theorem argumentsRound {args : List Expr} (hargs : ∀ e ∈ args, e.Resolved N.flatten) :
    Lockstep N (argumentsRound i' args) (Parse.argumentsRound i (args.map Expr.erase))
      (RoundOf (ReadArgs N) (ReadArgs N)) := by
  unfold Noted.argumentsRound Parse.argumentsRound
  refine (Still.accept _).andThen fun comma => .ite ?_ ?_
  · exact (h.expr N).andThen fun e he =>
      .pure (.inl ⟨rfl, rfl, List.forall_mem_cons.2 ⟨he, hargs⟩⟩)
  · exact (Still.expect _).andThen fun _ =>
      .pure (.inr ⟨rfl, List.map_reverse, fun e he => hargs e (List.mem_reverse.1 he)⟩)

theorem arguments : Lockstep N (arguments i') (Parse.arguments i) (ReadArgs N) := by
  have hrounds {first : Expr} (hfirst : first.Resolved N.flatten) :
      Lockstep N (Parse.rounds (Noted.argumentsRound i') [first])
        (Parse.rounds (Parse.argumentsRound i) [first.erase]) (ReadArgs N) := by
    refine .rounds (I := ReadArgs N) ?_ ⟨rfl, rfl, List.forall_mem_singleton.2 hfirst⟩
    rintro args _ _ ⟨rfl, rfl, hargs⟩
    exact h.argumentsRound _ hargs
  unfold Noted.arguments Parse.arguments
  exact (Still.accept _).andThen fun closed =>
    .ite (.pure ⟨rfl, rfl, List.forall_mem_nil _⟩) ((h.expr N).andThen fun _ => hrounds)

theorem primary : Lockstep N (primary max i') (Parse.primary max i) (ReadExpr N) := by
  unfold Noted.primary Parse.primary
  refine Still.peek.andThen fun token => ?_
  cases token with
  | none => exact .faultNear _
  | some t =>
    cases t with
    | name s =>
      refine Still.advance.andThen fun _ => .get fun st hst => ?_
      -- what is noted is what the parser has just found out, in the state that it is in
      have hknown : (Expr.name s (st.isLocal s)).Resolved N.flatten := by
        rw [Expr.Resolved, isLocal_eq, hst]
      exact .ite ((Still.addConstant _ _).andThen fun _ => .pure ⟨rfl, rfl, hknown⟩)
        (.pure ⟨rfl, rfl, hknown⟩)
    | mark k =>
      cases k with
      | openParen =>
        exact Still.advance.andThen fun _ => (h.expr N).andThen fun e he =>
          (Still.expect _).andThen fun _ => .pure ⟨rfl, rfl, he⟩
      | _ => exact .faultNear _
    | _ => exact .faultNear _

theorem suffix {e : Expr} (he : e.Resolved N.flatten) :
    Lockstep N (suffix max i' e) (Parse.suffix max i e.erase)
      (RoundOf (ReadExpr N) (ReadExpr N)) := by
  have hlast : Lockstep N (pure (.inr e)) (pure (.inr e.erase))
      (RoundOf (ReadExpr N) (ReadExpr N)) := .pure (.inr ⟨rfl, rfl, he⟩)
  unfold Noted.suffix Parse.suffix
  refine Still.peek.andThen fun token => ?_
  cases token with
  | none => exact hlast
  | some t =>
    cases t with
    | mark k =>
      cases k with
      | dot =>
        exact Still.advance.andThen fun _ => Still.expectName.andThen fun field =>
          (Still.addConstant _ _).andThen fun _ => .pure (.inl ⟨rfl, rfl, he, trivial⟩)
      | openBracket =>
        exact Still.advance.andThen fun _ => (h.expr N).andThen fun key hkey =>
          (Still.expect _).andThen fun _ => .pure (.inl ⟨rfl, rfl, he, hkey⟩)
      | openParen =>
        refine Still.advance.andThen fun _ => (h.arguments N).andThen fun args hargs => ?_
        refine .pure (.inl ⟨rfl, ?_, he, argsResolved_iff.2 hargs⟩)
        rw [Expr.erase, eraseArgs_eq_map]
      | _ => exact hlast
    | _ => exact hlast

theorem suffixed : Lockstep N (suffixed max i') (Parse.suffixed max i) (ReadExpr N) := by
  refine (h.primary max N).bind fun e a N' he => .rounds (I := ReadExpr N) ?_ he
  rintro e _ _ ⟨rfl, rfl, he⟩
  exact h.suffix max _ he

theorem part : Lockstep N (part max i') (Parse.part max i) (ReadPart N) := by
  have hitem : Lockstep N (do return Part.item (← i'.expr)) (do return Chunk.Part.item (← i.expr))
      (ReadPart N) := (h.expr N).andThen fun e he => .pure ⟨rfl, rfl, he⟩
  unfold Noted.part Parse.part
  refine Still.peekSecond.andThen fun second => Still.peek.andThen fun token => ?_
  cases token with
  | none => exact hitem
  | some t =>
    cases t with
    | name s =>
      refine .ite ?_ hitem
      exact Still.advance.andThen fun _ => Still.advance.andThen fun _ =>
        (Still.addConstant _ _).andThen fun _ => (h.expr N).andThen fun value hvalue =>
          .pure ⟨rfl, rfl, trivial, hvalue⟩
    | mark k =>
      cases k with
      | openBracket =>
        exact Still.advance.andThen fun _ => (h.expr N).andThen fun key hkey =>
          (Still.expect _).andThen fun _ => (Still.expect _).andThen fun _ =>
            (h.expr N).andThen fun value hvalue => .pure ⟨rfl, rfl, hkey, hvalue⟩
      | _ => exact hitem
    | _ => exact hitem

theorem constructorRound {parts : List Part} (hparts : ∀ p ∈ parts, p.Resolved N.flatten) :
    Lockstep N (constructorRound max i' parts)
      (Parse.constructorRound max i (parts.map Part.erase))
      (RoundOf (ReadParts N) (ReadExpr N)) := by
  have hlast {parts : List Part} (hparts : ∀ p ∈ parts, p.Resolved N.flatten) :
      Lockstep N (pure (.inr (Expr.table parts.reverse)))
        (pure (.inr (Chunk.Expr.table (parts.map Part.erase).reverse)))
        (RoundOf (ReadParts N) (ReadExpr N)) := by
    refine .pure (.inr ⟨rfl, ?_, partsResolved_iff.2 fun p hp => hparts p (List.mem_reverse.1 hp)⟩)
    rw [Expr.erase, eraseParts_eq_map, List.map_reverse]
  unfold Noted.constructorRound Parse.constructorRound
  refine (Still.accept _).andThen fun closed => .ite (hlast hparts) ?_
  refine (h.part max N).andThen fun p hp => Still.separator.andThen fun separated => ?_
  have hmore := List.forall_mem_cons.2 ⟨hp, hparts⟩
  exact .ite (.pure (.inl ⟨rfl, rfl, hmore⟩)) ((Still.expect _).andThen fun _ => hlast hmore)

theorem constructor : Lockstep N (constructor max i') (Parse.constructor max i) (ReadExpr N) := by
  refine .rounds (I := ReadParts N) ?_ ⟨rfl, rfl, List.forall_mem_nil _⟩
  rintro parts _ _ ⟨rfl, rfl, hparts⟩
  exact h.constructorRound max _ hparts

theorem function : Lockstep N (function i') (Parse.function i) (ReadExpr N) := by
  have hbody : Lockstep N (do
      Parse.openFunction
      let body ← i'.block
      Parse.closeFunction
      Parse.expect (.keyword "end")
      return Expr.function body) (do
      Parse.openFunction
      let body ← i.block
      Parse.closeFunction
      Parse.expect (.keyword "end")
      return Chunk.Expr.function body) (ReadExpr N) := by
    refine .of_open fun hN => lockstep_openFunction ((h.block _ _ _).bind ?_)
    rintro body _ _ ⟨rfl, rfl, hbody⟩
    exact lockstep_closeFunction hN ((Still.expect _).andThen fun _ => .pure ⟨rfl, rfl, hbody⟩)
  unfold Noted.function Parse.function
  exact (Still.expect _).andThen fun _ => (Still.accept _).andThen fun closed =>
    .ite ((Still.faultNear _).andThen fun _ => hbody) hbody

theorem operand : Lockstep N (operand max i') (Parse.operand max i) (ReadExpr N) := by
  unfold Parse.operand
  unfold Noted.operand
  refine Still.peek.andThen fun token => ?_
  cases token with
  | none => exact h.suffixed max N
  | some t =>
    cases t with
    | integer n =>
      exact Still.advance.andThen fun _ => (Still.addConstant _ _).andThen fun _ =>
        .pure ⟨rfl, rfl, trivial⟩
    | float x =>
      exact Still.advance.andThen fun _ => (Still.addConstant _ _).andThen fun _ =>
        .pure ⟨rfl, rfl, trivial⟩
    | string s =>
      exact Still.advance.andThen fun _ => (Still.addConstant _ _).andThen fun _ =>
        .pure ⟨rfl, rfl, trivial⟩
    | keyword word =>
      exact .ite (Still.advance.andThen fun _ => .pure ⟨rfl, rfl, trivial⟩)
        (.ite (Still.advance.andThen fun _ => .pure ⟨rfl, rfl, trivial⟩)
          (.ite (Still.advance.andThen fun _ => .pure ⟨rfl, rfl, trivial⟩)
            (.ite (Still.advance.andThen fun _ => h.function N) (h.suffixed max N))))
    | mark k =>
      cases k with
      | openBrace => exact Still.advance.andThen fun _ => h.constructor max N
      | _ => exact h.suffixed max N
    | name s => exact h.suffixed max N

theorem operationRound (floor : Nat) {left : Expr} (hleft : left.Resolved N.flatten) :
    Lockstep N (Noted.operation i' floor left) (Parse.operation i floor left.erase)
      (RoundOf (ReadExpr N) (ReadExpr N)) := by
  have hlast : Lockstep N (pure (.inr left)) (pure (.inr left.erase))
      (RoundOf (ReadExpr N) (ReadExpr N)) := .pure (.inr ⟨rfl, rfl, hleft⟩)
  unfold Noted.operation Parse.operation
  refine Still.peek.andThen fun token => ?_
  cases Parse.operator? token with
  | none => exact hlast
  | some op =>
    exact .ite hlast (Still.advance.andThen fun _ => (h.operation N _).andThen fun right hright =>
      .pure (.inl ⟨rfl, rfl, hleft, hright⟩))

theorem operations (floor : Nat) :
    Lockstep N (operations max i' floor) (Parse.operations max i floor) (ReadExpr N) := by
  have hrounds (first : Expr) (hfirst : first.Resolved N.flatten) :
      Lockstep N (Parse.rounds (Noted.operation i' floor) first)
        (Parse.rounds (Parse.operation i floor) first.erase) (ReadExpr N) := by
    refine .rounds (I := ReadExpr N) ?_ ⟨rfl, rfl, hfirst⟩
    rintro left _ _ ⟨rfl, rfl, hleft⟩
    exact h.operationRound _ floor hleft
  unfold Noted.operations Parse.operations
  simp only [← bind_pure_comp, bind_assoc, pure_bind]
  exact (Still.accept _).andThen fun minus =>
    .ite ((h.operation N _).andThen fun e => hrounds (.negate e))
      ((h.operand max N).andThen hrounds)

/-! ## Statements -/

variable (scope : List String) (Γ : List (List String)) (M : Scopes)

/-- A block has a scope of its own, which is closed after it. -/
theorem scopedBlock (locals : List String) :
    Lockstep (Γ :: M) (scopedBlock i' locals) (Parse.scopedBlock i locals)
      (Kept (Γ :: M) eraseBody (BodyResolved locals.reverse (Γ ++ M.flatten))) := by
  unfold Noted.scopedBlock Parse.scopedBlock
  refine lockstep_openScope (lockstep_declareAll locals ((h.block _ _ _).bind ?_))
  rintro body _ _ ⟨rfl, rfl, hbody⟩
  rw [List.append_nil] at hbody
  exact lockstep_closeScope ((Still.expect _).andThen fun _ => .pure ⟨rfl, rfl, hbody⟩)

theorem declaration : Lockstep ((scope :: Γ) :: M) (declaration i') (Parse.declaration i)
    (ReadStat scope Γ M) := by
  have hdeclare (name : String) {value : Expr}
      (hvalue : value.Resolved (scope :: (Γ ++ M.flatten))) :
      Lockstep ((scope :: Γ) :: M)
        (do Parse.declare name; return Stat.declare name value)
        (do Parse.declare name; return Chunk.Stat.declare name value.erase)
        (ReadStat scope Γ M) := lockstep_declare name (.pure ⟨rfl, rfl, hvalue⟩)
  unfold Noted.declaration Parse.declaration
  refine Still.expectName.andThen fun name => (Still.accept _).andThen fun given => .ite ?_ ?_
  · exact (h.expr _).andThen fun value hvalue => hdeclare name hvalue
  · exact hdeclare name trivial

theorem loop : Lockstep ((scope :: Γ) :: M) (loop i') (Parse.loop i) (ReadStat scope Γ M) := by
  have hbody (counter : String) {start limit step : Expr}
      (hstart : start.Resolved (scope :: (Γ ++ M.flatten)))
      (hlimit : limit.Resolved (scope :: (Γ ++ M.flatten)))
      (hstep : step.Resolved (scope :: (Γ ++ M.flatten))) :
      Lockstep ((scope :: Γ) :: M)
        (do
          Parse.expect (.keyword "do")
          return Stat.loop counter start limit step (← Noted.scopedBlock i' [counter]))
        (do
          Parse.expect (.keyword "do")
          return Chunk.Stat.loop counter start.erase limit.erase step.erase
            (← Parse.scopedBlock i [counter]))
        (ReadStat scope Γ M) :=
    (Still.expect _).andThen fun _ => (h.scopedBlock _ _ _).andThen fun body hbody =>
      .pure ⟨rfl, rfl, hstart, hlimit, hstep, hbody⟩
  unfold Noted.loop Parse.loop
  refine Still.expectName.andThen fun counter => (Still.expect _).andThen fun _ =>
    (h.expr _).andThen fun start hstart => (Still.expect _).andThen fun _ =>
      (h.expr _).andThen fun limit hlimit => (Still.accept _).andThen fun given => .ite ?_ ?_
  · exact (h.expr _).andThen fun step hstep => hbody counter hstart hlimit hstep
  · exact hbody counter hstart hlimit trivial

theorem assignment : Lockstep ((scope :: Γ) :: M) (assignment max i') (Parse.assignment max i)
    (ReadStat scope Γ M) := by
  unfold Noted.assignment Parse.assignment
  refine (h.suffixed max _).andThen fun target htarget => (Still.accept _).andThen fun equals => ?_
  have hassign : Lockstep ((scope :: Γ) :: M) (do return Stat.assign target (← i'.expr))
      (do return Chunk.Stat.assign target.erase (← i.expr)) (ReadStat scope Γ M) :=
    (h.expr _).andThen fun value hvalue => .pure ⟨rfl, rfl, htarget, hvalue⟩
  exact .ite (.ite ((Still.fault _).andThen fun _ => hassign) hassign)
    (.ite (.pure ⟨rfl, rfl, htarget⟩) (.faultNear _))

theorem statement : Lockstep ((scope :: Γ) :: M) (statement max i') (Parse.statement max i)
    (ReadStat? scope Γ M) := by
  have hsome {p' : Parse Stat} {p : Parse Chunk.Stat}
      (hp : Lockstep ((scope :: Γ) :: M) p' p (ReadStat scope Γ M)) :
      Lockstep ((scope :: Γ) :: M) (some <$> p') (some <$> p) (ReadStat? scope Γ M) := by
    simp only [← bind_pure_comp]
    refine hp.bind ?_
    rintro x _ _ ⟨rfl, rfl, hx⟩
    exact .pure ⟨rfl, rfl, hx, trivial⟩
  have hassignment := hsome (h.assignment max scope Γ M)
  rw [statement_eq]
  unfold Noted.statement
  refine Still.peek.andThen fun token => ?_
  cases token with
  | none => exact hassignment
  | some t =>
    cases t with
    | keyword word =>
      refine .ite (Still.advance.andThen fun _ => hsome (h.declaration scope Γ M))
        (.ite (Still.advance.andThen fun _ => hsome (h.loop scope Γ M))
          (.ite (Still.advance.andThen fun _ => ?_) (.faultNear _)))
      exact (h.scopedBlock _ _ []).andThen fun body hbody => .pure ⟨rfl, rfl, hbody, trivial⟩
    | mark k =>
      cases k with
      | semicolon => exact Still.advance.andThen fun _ => .pure ⟨rfl, rfl, trivial⟩
      | _ => exact hassignment
    | _ => exact hassignment

theorem statementsRound {N : Scopes} {xs : List Stat} {as : List Chunk.Stat}
    (hdone : ReadDone scope Γ M xs as N) :
    Lockstep N (statementsRound max i' xs) (Parse.statementsRound max i as)
      (RoundOf (ReadDone scope Γ M) (ReadBody scope Γ M)) := by
  obtain ⟨rfl, rfl, hxs⟩ := hdone
  have hlast : Lockstep ((scopeAfter scope xs.reverse :: Γ) :: M) (pure (.inr xs.reverse))
      (pure (.inr (xs.map Stat.erase).reverse))
      (RoundOf (ReadDone scope Γ M) (ReadBody scope Γ M)) :=
    .pure (.inr ⟨rfl, by rw [eraseBody_eq_map, List.map_reverse], hxs⟩)
  unfold Noted.statementsRound Parse.statementsRound
  refine Still.peek.andThen fun token => ?_
  cases token with
  | none => exact hlast
  | some t =>
    by_cases ht : t = .keyword "end"
    · subst ht
      exact hlast
    have hgoes : ¬(some t = none ∨ some t = some (.keyword "end")) := by simpa using ht
    simp only [hgoes, if_false]
    refine (h.statement max _ _ _).bind ?_
    rintro x _ _ ⟨rfl, rfl, hx⟩
    -- the statements that were read are kept with the last one first
    have hreverse : (x.toList ++ xs).reverse = xs.reverse ++ x.toList := by
      cases x <;> simp
    refine .pure (.inl ⟨?_, ?_, ?_⟩)
    · rw [hreverse, scopeAfter_append]
    · rw [List.map_append, Option.toList_map]
    · rw [hreverse, bodyResolved_append]
      exact ⟨hxs, hx⟩

theorem statements : Lockstep ((scope :: Γ) :: M) (statements max i') (Parse.statements max i)
    (ReadBody scope Γ M) :=
  .rounds (fun _ _ _ => h.statementsRound max scope Γ M) ⟨rfl, rfl, trivial⟩

end Deeper

/-! ## Texts -/

/-- The rules are in lockstep with any number of levels left. -/
theorem deeper (max levels : Nat) : Deeper (inner max levels) (Parse.inner max levels) := by
  induction levels with
  | zero => exact ⟨fun _ _ => .fault _, fun _ _ _ => .fault _⟩
  | succ levels ih => exact ⟨fun N floor => ih.operations max N floor, ih.statements max⟩

theorem lockstep_chunk (limits : Limits) : Lockstep [[[]]] (chunk limits) (Parse.chunk limits)
    fun body' body _ => eraseBody body' = body ∧ BodyResolved [] [] body' := by
  unfold chunk Parse.chunk
  refine ((deeper _ _).statements _ [] [] []).bind ?_
  rintro body _ _ ⟨rfl, rfl, hbody⟩
  exact Still.peek.andThen fun token =>
    .ite ((Still.faultNear _).andThen fun _ => .pure ⟨rfl, hbody⟩) (.pure ⟨rfl, hbody⟩)

/-- A text is parsed with notes as it is without, and refused for the same fault. -/
theorem map_eraseBody_parse (limits : Limits) (text : String) :
    (parse limits text).map eraseBody = Chunk.parse limits text := by
  unfold parse Chunk.parse
  cases lex text with
  | error e => rfl
  | ok x =>
    obtain ⟨lexemes, stop⟩ := x
    show Except.map eraseBody (chunk limits { lexemes, stop } >>= fun r => .ok r.1) =
      (Parse.chunk limits { lexemes, stop } >>= fun r => .ok r.1)
    rcases lockstep_chunk limits { lexemes, stop } rfl with
      ⟨e, hnoted, hplain⟩ | ⟨tree, _, s, hnoted, hplain, rfl, -⟩
    · rw [hnoted, hplain]
      rfl
    · rw [hnoted, hplain]
      rfl

/-- **The notes of a text are right.** -/
theorem resolved_of_parse {limits : Limits} {text : String} {tree : List Stat}
    (h : parse limits text = .ok tree) : BodyResolved [] [] tree := by
  unfold parse at h
  cases hlex : lex text with
  | error e =>
    rw [hlex] at h
    cases h
  | ok x =>
    obtain ⟨lexemes, stop⟩ := x
    rw [hlex] at h
    have hrun : (chunk limits { lexemes, stop } >>= fun r => .ok r.1) = .ok tree := h
    rcases lockstep_chunk limits { lexemes, stop } rfl with
      ⟨e, hnoted, -⟩ | ⟨_, _, s, hnoted, -, -, hresolved⟩
    · rw [hnoted] at hrun
      cases hrun
    · rw [hnoted] at hrun
      cases hrun
      exact hresolved

end LuaGraph.Chunk.Noted
