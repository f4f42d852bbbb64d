import LuaGraph.Chunk.Parser

/-!
# What holds of every rule

The rules of the grammar are put together from steps that know nothing of the ceilings, from
counting a constant, and from what is parsed one level deeper. A property of parsers that is kept by
this (`Law`) holds of every rule if it holds one level deeper, and then by recursion at all levels.

* A parser is taken for all ceilings at once, as a function of what gives them.
* A *step* never goes back: what it leaves of the tokens is the end of what there was. If it fails,
  it does so at a token that was left, or at the end of the text (`Advances`). This is itself a law,
  so it holds of every rule.
-/

namespace LuaGraph.Chunk.Parse

/-! ## Runs -/

section

variable {α β : Type} {p : Parse α} {f : α → Parse β} {s : State}

/-- A run of two parsers is a run of the first and then of the second. -/
theorem bind_eq_ok {r : β × State} :
    (p >>= f) s = .ok r ↔ ∃ a s', p s = .ok (a, s') ∧ f a s' = .ok r := by
  show (p s >>= fun x => f x.1 x.2) = .ok r ↔ _
  cases hp : p s with
  | error e => simp [bind, Except.bind]
  | ok x =>
    obtain ⟨a, s'⟩ := x
    constructor
    · intro h
      exact ⟨a, s', rfl, h⟩
    · rintro ⟨_, _, ⟨⟩, h⟩
      exact h

/-- Two parsers fail where one of them does. -/
theorem bind_eq_error {e : Position × GrammarFault} :
    (p >>= f) s = .error e ↔ p s = .error e ∨ ∃ a s', p s = .ok (a, s') ∧ f a s' = .error e := by
  show (p s >>= fun x => f x.1 x.2) = .error e ↔ _
  cases hp : p s with
  | error e' => simp [bind, Except.bind]
  | ok x =>
    obtain ⟨a, s'⟩ := x
    constructor
    · intro h
      exact .inr ⟨a, s', rfl, h⟩
    · rintro (⟨⟨⟩⟩ | ⟨_, _, ⟨⟩, h⟩)
      exact h

end

/-! ## Levels -/

section

variable {max : Nat} {s : State}

/-- Without levels no expression is parsed. -/
theorem operation_zero_ne_ok {floor : Nat} {r : Expr × State} :
    (inner max 0).operation floor s ≠ .ok r := by
  intro h
  simp only [inner, operationAt] at h
  cases h

/-- Without levels no block is parsed. -/
theorem block_zero_ne_ok {r : List Stat × State} : (inner max 0).block s ≠ .ok r := by
  intro h
  simp only [inner, blockAt] at h
  cases h

theorem operation_succ (max levels floor : Nat) :
    (inner max (levels + 1)).operation floor = operations max (inner max levels) floor := by
  funext s
  simp only [inner, operationAt]

theorem block_succ (max levels : Nat) :
    (inner max (levels + 1)).block = statements max (inner max levels) := by
  funext s
  simp only [inner, blockAt]

end

/-! ## Counting -/

theorem addConstant_eq (m : Nat) (c : Constant) (s : State) : addConstant m c s =
    (if m < (s.frame.constants.insert c).size then fault (.tooManyConstants m) else pure ())
      { s with frame.constants := s.frame.constants.insert c } := rfl

/-- Counting a constant fails beyond the ceiling, and does nothing else but to count it. -/
theorem addConstant_eq_ok_iff {m : Nat} {c : Constant} {s : State} {r : Unit × State} :
    addConstant m c s = .ok r ↔
      r = ((), { s with frame.constants := s.frame.constants.insert c }) ∧
        (s.frame.constants.insert c).size ≤ m := by
  rw [addConstant_eq]
  split
  · rename_i hlt
    simp only [fault, reduceCtorEq, false_iff, not_and, Nat.not_le]
    exact fun _ => hlt
  · rename_i hle
    show Except.ok _ = Except.ok r ↔ _
    rw [Except.ok.injEq, eq_comm, and_iff_left (Nat.le_of_not_lt hle)]

/-- A statement, where the words are told apart one after the other. -/
theorem statement_eq (max : Nat) (inner : Inner) : statement max inner = (do
    match ← peek with
    | some (.mark .semicolon) => advance; return none
    | some (.keyword word) =>
      if word = "local" then advance; some <$> declaration inner
      else if word = "for" then advance; some <$> loop inner
      else if word = "do" then advance; return some (.block (← scopedBlock inner []))
      else faultNear .unexpected
    | _ => some <$> assignment max inner) := by
  unfold statement
  refine congrArg (peek >>= ·) (funext fun token => ?_)
  cases token with
  | none => rfl
  | some token =>
    cases token with
    | keyword word =>
      by_cases hlocal : word = "local"
      · subst hlocal
        rfl
      by_cases hfor : word = "for"
      · subst hfor
        rfl
      by_cases hdo : word = "do"
      · subst hdo
        rfl
      simp only [hlocal, hfor, hdo, if_false]
    | mark k => cases k <;> rfl
    | _ => rfl

/-! ## Steps -/

section

variable {α β : Type} {p : Parse α} {f : α → Parse β}

/-- The positions of the tokens left and of the end of the text. -/
def places (s : State) : List Position := s.lexemes.map Lexeme.position ++ [s.stop]

/-- The state is left behind by a parser that starts in the other one and does not go back. -/
def Leaves (s s' : State) : Prop := s'.lexemes <:+ s.lexemes ∧ s'.stop = s.stop

theorem Leaves.trans {s s' s'' : State} (h : Leaves s s') (h' : Leaves s' s'') : Leaves s s'' :=
  ⟨h'.1.trans h.1, h'.2.trans h.2⟩

theorem Leaves.places {s s' : State} (h : Leaves s s') {q : Position} (hq : q ∈ places s') :
    q ∈ Parse.places s := by
  unfold Parse.places at hq ⊢
  rw [h.2] at hq
  exact List.mem_append.2 ((List.mem_append.1 hq).imp_left ((h.1.map _).subset ·))

/-- The parser never goes back, and fails at a place that is left. -/
structure Advances (p : Parse α) : Prop where
  leaves : ∀ s a s', p s = .ok (a, s') → Leaves s s'
  place : ∀ s e, p s = .error e → e.1 ∈ places s

namespace Advances

theorem suffix (h : Advances p) {s s' : State} {a : α} (hrun : p s = .ok (a, s')) :
    s'.lexemes <:+ s.lexemes := (h.leaves s a s' hrun).1

theorem bind (h : Advances p) (h' : ∀ a, Advances (f a)) : Advances (p >>= f) where
  leaves s b s'' hrun := by
    obtain ⟨a, s', hp, hf⟩ := bind_eq_ok.1 hrun
    exact (h.leaves s a s' hp).trans ((h' a).leaves s' b s'' hf)
  place s e hrun := by
    rcases bind_eq_error.1 hrun with hp | ⟨a, s', hp, hf⟩
    · exact h.place s e hp
    · exact (h.leaves s a s' hp).places ((h' a).place s' e hf)

/-- A parser that always succeeds and takes no token. -/
theorem of_eq_ok {g : State → α × State} (h : ∀ s, p s = .ok (g s))
    (hleaves : ∀ s, (g s).2.lexemes = s.lexemes ∧ (g s).2.stop = s.stop) : Advances p where
  leaves s a s' hrun := by
    have hs' : (g s).2 = s' := congrArg Prod.snd (Except.ok.inj ((h s).symm.trans hrun))
    exact hs' ▸ ⟨(hleaves s).1 ▸ List.suffix_refl _, (hleaves s).2⟩
  place s e hrun := nomatch (h s).symm.trans hrun

theorem pure (a : α) : Advances (Pure.pure a : Parse α) :=
  of_eq_ok (fun _ => rfl) fun _ => ⟨rfl, rfl⟩

theorem get : Advances (MonadState.get : Parse State) :=
  of_eq_ok (fun _ => rfl) fun _ => ⟨rfl, rfl⟩

theorem peek : Advances Parse.peek := of_eq_ok (fun _ => rfl) fun _ => ⟨rfl, rfl⟩

theorem peekSecond : Advances Parse.peekSecond := of_eq_ok (fun _ => rfl) fun _ => ⟨rfl, rfl⟩

theorem advance : Advances Parse.advance where
  leaves := by
    rintro s a s' ⟨⟩
    exact ⟨List.drop_suffix .., rfl⟩
  place := by
    rintro s e ⟨⟩

theorem fault (e : GrammarFault) : Advances (Parse.fault e : Parse α) where
  leaves := by
    rintro s a s' ⟨⟩
  place := by
    rintro s _ ⟨⟩
    unfold places
    cases s.lexemes with
    | nil => exact List.mem_singleton_self _
    | cons l ls => exact List.mem_cons_self ..

theorem faultNear (e : String → GrammarFault) : Advances (Parse.faultNear e : Parse α) :=
  peek.bind fun _ => fault _

theorem sees (t : Token) : Advances (Parse.sees t) := peek.bind fun _ => pure _

theorem accept (t : Token) : Advances (Parse.accept t) := by
  refine (sees t).bind fun b => ?_
  cases b with
  | true => exact advance.bind fun _ => pure _
  | false => exact pure _

theorem expect (t : Token) : Advances (Parse.expect t) := by
  refine (accept t).bind fun b => ?_
  cases b with
  | true => exact pure _
  | false => exact faultNear _

theorem expectName : Advances Parse.expectName := by
  refine peek.bind fun token => ?_
  split
  · exact advance.bind fun _ => pure _
  · exact faultNear _

theorem separator : Advances Parse.separator := by
  refine (accept _).bind fun b => ?_
  cases b with
  | true => exact pure _
  | false => exact accept _

theorem modify {f : State → State} (h : ∀ s, (f s).lexemes = s.lexemes ∧ (f s).stop = s.stop) :
    Advances (modify f : Parse Unit) := of_eq_ok (g := fun s => ((), f s)) (fun _ => rfl) h

theorem declare (name : String) : Advances (Parse.declare name) := modify fun _ => ⟨rfl, rfl⟩

theorem openScope : Advances Parse.openScope := modify fun _ => ⟨rfl, rfl⟩

theorem closeScope : Advances Parse.closeScope := modify fun _ => ⟨rfl, rfl⟩

theorem openFunction : Advances Parse.openFunction := modify fun _ => ⟨rfl, rfl⟩

theorem closeFunction : Advances Parse.closeFunction := modify fun _ => ⟨rfl, rfl⟩

theorem declareAll (names : List String) : Advances (names.forM Parse.declare) := by
  induction names with
  | nil => exact pure _
  | cons name names ih => exact (declare name).bind fun _ => ih

theorem addConstant (m : Nat) (c : Constant) : Advances (Parse.addConstant m c) := by
  unfold Parse.addConstant
  refine .bind (modify fun s => ⟨rfl, rfl⟩) fun _ => .bind get fun s => ?_
  split
  · exact fault _
  · exact pure _

end Advances

end

/-! ## Laws -/

/-- A property of parsers that are given ceilings by `most`. It holds of every step and of counting
a constant, and of one parser after the other if it holds of both. -/
structure Law (ι : Type) (most : ι → Nat) where
  Holds : {α : Type} → (ι → Parse α) → Prop
  step : ∀ {α : Type} {p : Parse α}, Advances p → Holds fun _ => p
  bind : ∀ {α β : Type} {p : ι → Parse α} {f : α → ι → Parse β}, Holds p → (∀ a, Holds (f a)) →
    Holds fun x => p x >>= fun a => f a x
  count : ∀ c, Holds fun x => addConstant (most x) c

namespace Law

variable {ι : Type} {most : ι → Nat} (L : Law ι most) {α β : Type}

/-- A step before anything else. -/
theorem andThen {p : Parse α} {f : α → ι → Parse β} (hp : Advances p) (h : ∀ a, L.Holds (f a)) :
    L.Holds fun x => p >>= fun a => f a x := L.bind (L.step hp) h

theorem pure (a : α) : L.Holds fun _ => (Pure.pure a : Parse α) := L.step (.pure a)

theorem map {p : ι → Parse α} (h : L.Holds p) (f : α → β) : L.Holds fun x => f <$> p x := by
  simp only [← bind_pure_comp]
  exact L.bind h fun _ => L.pure _

theorem roundsWithin {f : α → ι → Parse (α ⊕ β)} (h : ∀ a, L.Holds (f a)) (left : List Lexeme)
    (a : α) : L.Holds fun x => Parse.roundsWithin (fun a => f a x) left a := by
  induction left generalizing a with
  | nil =>
    unfold Parse.roundsWithin
    refine L.bind (h a) fun x => ?_
    cases x with
    | inl b => exact L.step (.faultNear _)
    | inr b => exact L.pure b
  | cons l left ih =>
    unfold Parse.roundsWithin
    refine L.bind (h a) fun x => ?_
    cases x with
    | inl b => exact ih b
    | inr b => exact L.pure b

theorem rounds {f : α → ι → Parse (α ⊕ β)} (h : ∀ a, L.Holds (f a)) (a : α) :
    L.Holds fun x => Parse.rounds (fun a => f a x) a :=
  L.andThen .get fun s => L.roundsWithin h s.lexemes a

/-- The law holds one level deeper. -/
structure Deeper (i : ι → Inner) : Prop where
  operation : ∀ floor, L.Holds fun x => (i x).operation floor
  block : L.Holds fun x => (i x).block

variable {L} {i : ι → Inner} (h : L.Deeper i)
include h

theorem Deeper.expr : L.Holds fun x => (i x).expr := h.operation 0

/-! ## Expressions -/

theorem arguments : L.Holds fun x => Parse.arguments (i x) := by
  unfold Parse.arguments
  refine L.andThen (.accept _) fun closed => ?_
  split
  · exact L.pure _
  · refine L.bind h.expr fun first => L.rounds (fun args => ?_) [first]
    refine L.andThen (.accept _) fun comma => ?_
    split
    · exact L.bind h.expr fun _ => L.pure _
    · exact L.andThen (.expect _) fun _ => L.pure _

theorem primary : L.Holds fun x => Parse.primary (most x) (i x) := by
  unfold Parse.primary
  refine L.andThen .peek fun token => ?_
  split
  · refine L.andThen .advance fun _ => L.andThen .get fun s => ?_
    split
    · exact L.bind (L.count _) fun _ => L.pure _
    · exact L.pure _
  · exact L.andThen .advance fun _ => L.bind h.expr fun _ => L.andThen (.expect _) fun _ => L.pure _
  · exact L.step (.faultNear _)

theorem suffix (e : Expr) : L.Holds fun x => Parse.suffix (most x) (i x) e := by
  unfold Parse.suffix
  refine L.andThen .peek fun token => ?_
  split
  · exact L.andThen .advance fun _ => L.andThen .expectName fun _ =>
      L.bind (L.count _) fun _ => L.pure _
  · exact L.andThen .advance fun _ => L.bind h.expr fun _ => L.andThen (.expect _) fun _ => L.pure _
  · exact L.andThen .advance fun _ => L.bind (arguments h) fun _ => L.pure _
  · exact L.pure _

theorem suffixed : L.Holds fun x => Parse.suffixed (most x) (i x) :=
  L.bind (primary h) fun e => L.rounds (suffix h) e

theorem part : L.Holds fun x => Parse.part (most x) (i x) := by
  have hitem : L.Holds fun x => do return Part.item (← (i x).expr) :=
    L.bind h.expr fun _ => L.pure _
  unfold Parse.part
  refine L.andThen .peekSecond fun second => L.andThen .peek fun token => ?_
  split
  · split
    · exact L.andThen .advance fun _ => L.andThen .advance fun _ =>
        L.bind (L.count _) fun _ => L.bind h.expr fun _ => L.pure _
    · exact hitem
  · exact L.andThen .advance fun _ => L.bind h.expr fun _ => L.andThen (.expect _) fun _ =>
      L.andThen (.expect _) fun _ => L.bind h.expr fun _ => L.pure _
  · exact hitem

theorem constructor : L.Holds fun x => Parse.constructor (most x) (i x) := by
  refine L.rounds (fun parts => L.andThen (.accept _) fun closed => ?_) _
  split
  · exact L.pure _
  · refine L.bind (part h) fun p => L.andThen .separator fun separated => ?_
    split
    · exact L.pure _
    · exact L.andThen (.expect _) fun _ => L.pure _

theorem function : L.Holds fun x => Parse.function (i x) := by
  unfold Parse.function
  refine L.andThen (.expect _) fun _ => L.andThen (.accept _) fun closed => ?_
  have hbody : L.Holds fun x => do
      openFunction
      let body ← (i x).block
      closeFunction
      expect (.keyword "end")
      return Expr.function body :=
    L.andThen .openFunction fun _ => L.bind h.block fun _ => L.andThen .closeFunction fun _ =>
      L.andThen (.expect _) fun _ => L.pure _
  split
  · exact L.andThen (.faultNear _) fun _ => hbody
  · exact hbody

theorem operand : L.Holds fun x => Parse.operand (most x) (i x) := by
  unfold Parse.operand
  refine L.andThen .peek fun token => ?_
  cases token with
  | none => exact suffixed h
  | some token =>
    cases token with
    | integer n => exact L.andThen .advance fun _ => L.bind (L.count _) fun _ => L.pure _
    | float x => exact L.andThen .advance fun _ => L.bind (L.count _) fun _ => L.pure _
    | string str => exact L.andThen .advance fun _ => L.bind (L.count _) fun _ => L.pure _
    | keyword word =>
      dsimp only
      split
      · exact L.andThen .advance fun _ => L.pure _
      split
      · exact L.andThen .advance fun _ => L.pure _
      split
      · exact L.andThen .advance fun _ => L.pure _
      split
      · exact L.andThen .advance fun _ => function h
      · exact suffixed h
    | mark k =>
      cases k with
      | openBrace => exact L.andThen .advance fun _ => constructor h
      | _ => exact suffixed h
    | _ => exact suffixed h

theorem operation (floor : Nat) (left : Expr) :
    L.Holds fun x => Parse.operation (i x) floor left := by
  unfold Parse.operation
  refine L.andThen .peek fun token => ?_
  split
  · split
    · exact L.pure _
    · exact L.andThen .advance fun _ => L.bind (h.operation _) fun _ => L.pure _
  · exact L.pure _

theorem operations (floor : Nat) : L.Holds fun x => Parse.operations (most x) (i x) floor := by
  have hrounds (first : Expr) := L.rounds (operation h floor) first
  unfold Parse.operations
  refine L.andThen (.accept _) fun minus => ?_
  split
  · exact L.bind (L.map (h.operation _) _) hrounds
  · exact L.bind (operand h) hrounds

/-! ## Statements -/

theorem scopedBlock (locals : List String) : L.Holds fun x => Parse.scopedBlock (i x) locals :=
  L.andThen .openScope fun _ => L.andThen (.declareAll locals) fun _ => L.bind h.block fun _ =>
    L.andThen .closeScope fun _ => L.andThen (.expect _) fun _ => L.pure _

theorem declaration : L.Holds fun x => Parse.declaration (i x) := by
  unfold Parse.declaration
  refine L.andThen .expectName fun name => L.andThen (.accept _) fun given => ?_
  split
  · exact L.bind h.expr fun _ => L.andThen (.declare _) fun _ => L.pure _
  · exact L.andThen (.pure _) fun _ => L.andThen (.declare _) fun _ => L.pure _

theorem loop : L.Holds fun x => Parse.loop (i x) := by
  unfold Parse.loop
  refine L.andThen .expectName fun counter => L.andThen (.expect _) fun _ =>
    L.bind h.expr fun start => L.andThen (.expect _) fun _ => L.bind h.expr fun limit =>
      L.andThen (.accept _) fun given => ?_
  have hbody (step : Expr) : L.Holds fun x => do
      expect (.keyword "do")
      return Stat.loop counter start limit step (← Parse.scopedBlock (i x) [counter]) :=
    L.andThen (.expect _) fun _ => L.bind (scopedBlock h _) fun _ => L.pure _
  split
  · exact L.bind h.expr hbody
  · exact L.andThen (.pure _) hbody

theorem assignment : L.Holds fun x => Parse.assignment (most x) (i x) := by
  unfold Parse.assignment
  refine L.bind (suffixed h) fun target => L.andThen (.accept _) fun equals => ?_
  have hassign : L.Holds fun x => do return Stat.assign target (← (i x).expr) :=
    L.bind h.expr fun _ => L.pure _
  split
  · split
    · exact L.andThen (.fault _) fun _ => hassign
    · exact hassign
  · split
    · exact L.pure _
    · exact L.step (.faultNear _)

theorem statement : L.Holds fun x => Parse.statement (most x) (i x) := by
  unfold Parse.statement
  refine L.andThen .peek fun token => ?_
  split
  · exact L.andThen .advance fun _ => L.pure _
  · exact L.andThen .advance fun _ => L.map (declaration h) _
  · exact L.andThen .advance fun _ => L.map (loop h) _
  · exact L.andThen .advance fun _ => L.bind (scopedBlock h _) fun _ => L.pure _
  · exact L.step (.faultNear _)
  · exact L.map (assignment h) _

theorem statements : L.Holds fun x => Parse.statements (most x) (i x) := by
  refine L.rounds (fun done => L.andThen .peek fun token => ?_) _
  split
  · exact L.pure _
  · exact L.pure _
  · exact L.bind (statement h) fun _ => L.pure _

omit h in
/-- What holds of the rules at some levels holds of them one level up. -/
theorem Deeper.succ {depth : ι → Nat} (h : L.Deeper fun x => inner (most x) (depth x)) :
    L.Deeper fun x => inner (most x) (depth x + 1) := ⟨operations h, statements h⟩

omit h in
theorem chunk {limits : ι → Limits} {L : Law ι fun x => (limits x).maxConstants}
    (h : L.Deeper fun x => inner (limits x).maxConstants (limits x).maxDepth) :
    L.Holds fun x => Parse.chunk (limits x) := by
  refine L.bind (statements h) fun body => L.andThen .peek fun token => ?_
  split
  · exact L.andThen (.faultNear _) fun _ => L.pure _
  · exact L.pure _

end Law

/-! ## Every rule advances -/

/-- That no parser goes back is a law. -/
def advancing (m : Nat) : Law Unit fun _ => m where
  Holds p := Advances (p ())
  step h := h
  bind h h' := h.bind h'
  count c := .addConstant m c

/-- Nothing goes back, at any level. -/
theorem deeper_advancing (m levels : Nat) : (advancing m).Deeper fun _ => inner m levels := by
  induction levels with
  | zero => exact ⟨fun _ => Advances.fault .tooManyLevels, Advances.fault .tooManyLevels⟩
  | succ levels ih => exact ih.succ

end LuaGraph.Chunk.Parse
