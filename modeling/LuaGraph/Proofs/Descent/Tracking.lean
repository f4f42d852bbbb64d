import LuaGraph.Proofs.Descent.Mirror

/-!
# The machine follows the grammar

Every rule of the machine tracks one of the grammar, and leaves open what was open before. This is
shown for each of them on the assumption that it is so one level deeper (`Deeper`), and then by
recursion on the number of levels that are left: the rules of the grammar are given this number, and
the machine has opened as many levels as are missing from the ceiling.

A block opens its level at different places in the two: the rules open a scope or a function first.
They do not come to differ by this, since opening these fails nowhere and takes no token.

Results: `deeper` and `tracks_chunk`.
-/

namespace LuaGraph.Chunk.Descent

/-- With `d` levels open, the machine does what the rules do that are given. For a block it has
opened one level more, if that is allowed. -/
structure Deeper (x : Lexemes) (limits : Limits) (d : Nat) (i : Parse.Inner) : Prop where
  operation : ∀ ns floor,
    Tracks x ⟨d, ns⟩ ⟨d, ns⟩ (fun n => (calls x limits n).subexpr floor) (i.operation floor)
  block : d < limits.maxDepth →
    ∀ ns, Tracks x ⟨d + 1, ns⟩ ⟨d + 1, ns⟩ (fun n => (calls x limits n).block []) i.block
  full : d = limits.maxDepth → i.block = Parse.fault .tooManyLevels
  le : d ≤ limits.maxDepth
  advancing : (Parse.advancing limits.maxConstants).Deeper fun _ => i

namespace Deeper

variable {x : Lexemes} {limits : Limits} {d : Nat} {i : Parse.Inner}
  (h : Deeper x limits d i) (ns : List Nat)
include h

theorem expr : Tracks x ⟨d, ns⟩ ⟨d, ns⟩ (fun n => (calls x limits n).subexpr 0) i.expr :=
  h.operation ns 0

/-! ## Expressions -/

theorem argument (args : List Expr) : Tracks x ⟨d, ns⟩ ⟨d, ns⟩
    (fun n => argument x (calls x limits n) args) (Parse.argumentsRound i args) := by
  unfold Descent.argument Parse.argumentsRound
  exact (tracks_accept _).bind fun comma =>
    tracksAt_ite ((h.expr ns).bind fun _ => tracks_pure _)
      ((tracks_expect _).bind fun _ => tracks_pure _)

theorem arguments : Tracks x ⟨d, ns⟩ ⟨d, ns⟩ (fun n => arguments x (calls x limits n))
    (Parse.arguments i) := by
  have hlater (first : Expr) : Tracks x ⟨d, ns⟩ ⟨d, ns⟩
      (fun n => (calls x limits n).laterArguments [first])
      (Parse.rounds (Parse.argumentsRound i) [first]) :=
    tracks_loop (fun _ => rfl) (h.argument ns) (Parse.progresses_argumentsRound h.advancing) _
  unfold Descent.arguments Parse.arguments
  exact (tracks_accept _).bind fun closed =>
    tracksAt_ite (tracks_pure _) ((h.expr ns).bind hlater)

theorem primaryExpr : Tracks x ⟨d, ns⟩ ⟨d, ns⟩ (fun n => primaryExpr x limits (calls x limits n))
    (Parse.primary limits.maxConstants i) := by
  unfold Descent.primaryExpr Parse.primary
  refine .peek (tracks_faultNear _) fun t => ?_
  cases t with
  | name s =>
    refine .advance (Tracks.isLocal fun st => tracksAt_ite ?_ (tracks_pure _))
    exact (tracks_addConstant _).bind fun _ => tracks_pure _
  | mark k =>
    cases k with
    | openParen =>
      exact .advance ((h.expr ns).bind fun _ => (tracks_expect _).bind fun _ => tracks_pure _)
    | _ => exact (tracks_faultNear _).before _
  | _ => exact (tracks_faultNear _).before _

theorem suffix (e : Expr) : Tracks x ⟨d, ns⟩ ⟨d, ns⟩
    (fun n => suffix x limits (calls x limits n) e) (Parse.suffix limits.maxConstants i e) := by
  unfold Descent.suffix Parse.suffix
  refine .peek (tracks_pure _) fun t => ?_
  cases t with
  | mark k =>
    cases k with
    | dot =>
      exact .advance (tracks_expectName.bind fun _ =>
        (tracks_addConstant _).bind fun _ => tracks_pure _)
    | openBracket =>
      exact .advance ((h.expr ns).bind fun _ => (tracks_expect _).bind fun _ => tracks_pure _)
    | openParen => exact .advance ((h.arguments ns).bind fun _ => tracks_pure _)
    | _ => exact (tracks_pure _).before _
  | _ => exact (tracks_pure _).before _

theorem suffixedExpr : Tracks x ⟨d, ns⟩ ⟨d, ns⟩ (fun n => suffixedExpr x limits (calls x limits n))
    (Parse.suffixed limits.maxConstants i) := by
  have hsuffixes (e : Expr) : Tracks x ⟨d, ns⟩ ⟨d, ns⟩ (fun n => (calls x limits n).suffixes e)
      (Parse.rounds (Parse.suffix limits.maxConstants i) e) :=
    tracks_loop (fun _ => rfl) (h.suffix ns) (Parse.progresses_suffix h.advancing) e
  exact (h.primaryExpr ns).bind hsuffixes

theorem field : Tracks x ⟨d, ns⟩ ⟨d, ns⟩ (fun n => field x limits (calls x limits n))
    (Parse.part limits.maxConstants i) := by
  have hitem : Tracks x ⟨d, ns⟩ ⟨d, ns⟩
      (fun n => do return Part.item (← (calls x limits n).subexpr 0))
      (do return Part.item (← i.expr)) := (h.expr ns).bind fun _ => tracks_pure _
  unfold Descent.field Parse.part
  refine .peekTwo fun second first => ?_
  cases first with
  | none => exact hitem.before _
  | some t =>
    cases t with
    | name s =>
      by_cases hsecond : second = some (.mark .equals)
      · subst hsecond
        exact .advance (.advance ((tracks_addConstant _).bind fun _ =>
          (h.expr ns).bind fun _ => tracks_pure _))
      · simp only [beq_eq_false_iff_ne.2 hsecond, Bool.false_eq_true, if_false]
        exact hitem.before _
    | mark k =>
      cases k with
      | openBracket =>
        exact .advance (.before ((h.expr ns).bind fun _ => (tracks_expect _).bind fun _ =>
          (tracks_expect _).bind fun _ => (h.expr ns).bind fun _ => tracks_pure _) _)
      | _ => exact hitem.before _
    | _ => exact hitem.before _

theorem laterField (parts : List Part) : Tracks x ⟨d, ns⟩ ⟨d, ns⟩
    (fun n => laterField x limits (calls x limits n) parts)
    (Parse.constructorRound limits.maxConstants i parts) := by
  unfold Descent.laterField Parse.constructorRound
  exact (tracks_accept _).bind fun closed => tracksAt_ite (tracks_pure _)
    ((h.field ns).bind fun p => tracks_separator.bind fun separated =>
      tracksAt_ite (tracks_pure _) ((tracks_expect _).bind fun _ => tracks_pure _))

theorem fields : Tracks x ⟨d, ns⟩ ⟨d, ns⟩ (fun n => (calls x limits n).fields [])
    (Parse.constructor limits.maxConstants i) :=
  tracks_loop (fun _ => rfl) (h.laterField ns) (Parse.progresses_constructorRound h.advancing) []

theorem functionBody : Tracks x ⟨d, ns⟩ ⟨d, ns⟩ (fun n => functionBody x limits (calls x limits n))
    (Parse.function i) := by
  have hbody : Tracks x ⟨d, ns⟩ ⟨d, ns⟩ (fun n => do
      openFunction x
      enter x limits
      let body ← (calls x limits n).block []
      leave x
      closeFunction x
      expect x (.keyword "end")
      return Expr.function body) (do
      Parse.openFunction
      let body ← i.block
      Parse.closeFunction
      Parse.expect (.keyword "end")
      return Expr.function body) := by
    refine tracksAt_of_open fun hns => tracks_openFunction.bind fun _ => ?_
    rcases Nat.lt_or_eq_of_le h.le with hlt | hfull
    · refine .silent (tracks_enter hlt) ((h.block hlt _).bind fun body => .silent tracks_leave ?_)
      exact (tracks_closeFunction hns).bind fun _ => (tracks_expect _).bind fun _ => tracks_pure _
    · rw [h.full hfull]
      exact tracks_enter_full hfull
  have hfault : Tracks x ⟨d, ns⟩ ⟨d, ns⟩ (fun _ => (faultNear x .parameters : Run Unit)) _ :=
    tracks_faultNear _
  unfold Descent.functionBody Parse.function
  exact (tracks_expect _).bind fun _ => (tracks_accept _).bind fun closed =>
    tracksAt_ite (hfault.bind fun _ => hbody) hbody

theorem tableConstructor : Tracks x ⟨d, ns⟩ ⟨d, ns⟩
    (fun n => tableConstructor x (calls x limits n))
    (Parse.expect (.mark .openBrace) >>= fun _ => Parse.constructor limits.maxConstants i) :=
  (tracks_expect _).bind fun _ => h.fields ns

theorem simpleExpr : Tracks x ⟨d, ns⟩ ⟨d, ns⟩ (fun n => simpleExpr x limits (calls x limits n))
    (Parse.operand limits.maxConstants i) := by
  have hsuffixed := (h.suffixedExpr ns).before
  unfold Parse.operand
  unfold Descent.simpleExpr
  refine .peek (h.suffixedExpr ns) fun t => ?_
  cases t with
  | integer n => exact .advance ((tracks_addConstant _).bind fun _ => tracks_pure _)
  | float f => exact .advance ((tracks_addConstant _).bind fun _ => tracks_pure _)
  | string s => exact .advance ((tracks_addConstant _).bind fun _ => tracks_pure _)
  | keyword word =>
    exact tracksAt_ite (.advance (tracks_pure _)) (tracksAt_ite (.advance (tracks_pure _))
      (tracksAt_ite (.advance (tracks_pure _)) (tracksAt_ite (.advance (h.functionBody ns))
        (hsuffixed _))))
  | mark k =>
    cases k with
    | openBrace => exact .of_expect ((h.tableConstructor ns).before _)
    | _ => exact hsuffixed _
  | name s => exact hsuffixed _

theorem binary (floor : Nat) (left : Expr) : Tracks x ⟨d, ns⟩ ⟨d, ns⟩
    (fun n => binary x (calls x limits n) floor left) (Parse.operation i floor left) := by
  unfold Descent.binary Parse.operation
  refine .peek (tracks_pure _) fun t => ?_
  cases Parse.operator? (some t) with
  | none => exact (tracks_pure _).before _
  | some op =>
    exact tracksAt_ite ((tracks_pure _).before _)
      (.advance ((h.operation ns _).bind fun _ => tracks_pure _))

theorem binaries (floor : Nat) (left : Expr) : Tracks x ⟨d, ns⟩ ⟨d, ns⟩
    (fun n => (calls x limits n).binaries floor left)
    (Parse.rounds (Parse.operation i floor) left) :=
  tracks_loop (fun _ => rfl) (h.binary ns floor) (Parse.progresses_operation h.advancing floor) left

theorem nestedBlock (locals : List String) : Tracks x ⟨d, ns⟩ ⟨d, ns⟩
    (fun n => nestedBlock x limits (calls x limits n) locals) (Parse.scopedBlock i locals) := by
  unfold Descent.nestedBlock Parse.scopedBlock
  rcases Nat.lt_or_eq_of_le h.le with hlt | hfull
  · refine .silent (tracks_enter hlt) (tracks_openScope.bind fun _ =>
      (tracks_declareAll locals).bind fun _ => (h.block hlt _).bind fun body =>
        tracks_closeScope.bind fun _ => .silent tracks_leave ?_)
    exact (tracks_expect _).bind fun _ => tracks_pure _
  · rw [h.full hfull, openScope_fault]
    exact tracks_enter_full hfull

theorem exprStatement : Tracks x ⟨d, ns⟩ ⟨d, ns⟩
    (fun n => exprStatement x limits (calls x limits n))
    (Parse.assignment limits.maxConstants i) := by
  have hassign (target : Expr) : Tracks x ⟨d, ns⟩ ⟨d, ns⟩
      (fun n => do return Stat.assign target (← (calls x limits n).subexpr 0))
      (do return Stat.assign target (← i.expr)) := (h.expr ns).bind fun _ => tracks_pure _
  have hfault : Tracks x ⟨d, ns⟩ ⟨d, ns⟩ (fun _ => (fault x .noTarget : Run Unit)) _ :=
    tracks_fault _
  unfold Descent.exprStatement Parse.assignment
  exact (h.suffixedExpr ns).bind fun target => (tracks_accept _).bind fun equals =>
    tracksAt_ite (tracksAt_ite (hfault.bind fun _ => hassign target) (hassign target))
      (tracksAt_ite (tracks_pure _) (tracks_faultNear _))

theorem declaration : Tracks x ⟨d, ns⟩ ⟨d, ns⟩ (fun n => declaration x (calls x limits n))
    (Parse.declaration i) := by
  have hdeclare (name : String) (value : Expr) : Tracks x ⟨d, ns⟩ ⟨d, ns⟩
      (fun _ => do declare x name; return Stat.declare name value)
      (do Parse.declare name; return Stat.declare name value) :=
    (tracks_declare _).bind fun _ => tracks_pure _
  unfold Descent.declaration Parse.declaration
  exact tracks_expectName.bind fun name => (tracks_accept _).bind fun given =>
    tracksAt_ite ((h.expr ns).bind (hdeclare name))
      ((tracks_pure _).bind (hdeclare name))

theorem forLoop : Tracks x ⟨d, ns⟩ ⟨d, ns⟩ (fun n => forLoop x limits (calls x limits n))
    (Parse.loop i) := by
  have hbody (counter : String) (start limit step : Expr) : Tracks x ⟨d, ns⟩ ⟨d, ns⟩
      (fun n => do
        expect x (.keyword "do")
        let body ← Descent.nestedBlock x limits (calls x limits n) [counter]
        return Stat.loop counter start limit step body)
      (do
        Parse.expect (.keyword "do")
        return Stat.loop counter start limit step (← Parse.scopedBlock i [counter])) :=
    (tracks_expect _).bind fun _ => (h.nestedBlock ns [counter]).bind fun _ => tracks_pure _
  unfold Descent.forLoop Parse.loop
  exact tracks_expectName.bind fun counter => (tracks_expect _).bind fun _ =>
    (h.expr ns).bind fun start => (tracks_expect _).bind fun _ => (h.expr ns).bind fun limit =>
      (tracks_accept _).bind fun given =>
        tracksAt_ite ((h.expr ns).bind (hbody counter start limit))
          ((tracks_pure _).bind (hbody counter start limit))

theorem statement : Tracks x ⟨d, ns⟩ ⟨d, ns⟩ (fun n => statement x limits (calls x limits n))
    (Parse.statement limits.maxConstants i) := by
  have hassignment : Tracks x ⟨d, ns⟩ ⟨d, ns⟩
      (fun n => do return some (← Descent.exprStatement x limits (calls x limits n)))
      (do return some (← Parse.assignment limits.maxConstants i)) :=
    (h.exprStatement ns).bind fun _ => tracks_pure _
  rw [Parse.statement_eq]
  unfold Descent.statement
  simp only [← bind_pure_comp]
  refine .peek hassignment fun t => ?_
  cases t with
  | keyword word =>
    exact tracksAt_ite (.advance ((h.declaration ns).bind fun _ => tracks_pure _))
      (tracksAt_ite (.advance ((h.forLoop ns).bind fun _ => tracks_pure _))
        (tracksAt_ite (.advance ((h.nestedBlock ns []).bind fun _ => tracks_pure _))
          ((tracks_faultNear _).before _)))
  | mark k =>
    cases k with
    | semicolon => exact .advance (tracks_pure _)
    | _ => exact hassignment.before _
  | _ => exact hassignment.before _

theorem laterStatement (done : List Stat) : Tracks x ⟨d, ns⟩ ⟨d, ns⟩
    (fun n => laterStatement x limits (calls x limits n) done)
    (Parse.statementsRound limits.maxConstants i done) := by
  unfold Descent.laterStatement Parse.statementsRound
  refine .peek (tracks_pure _) fun t => ?_
  by_cases ht : t = .keyword "end"
  · subst ht
    exact (tracks_pure _).before _
  · have hgoes : ¬(some t = none ∨ some t = some (.keyword "end")) := by simpa using ht
    simp only [hgoes, if_false]
    exact ((h.statement ns).bind fun _ => tracks_pure _).before _

theorem statements : Tracks x ⟨d, ns⟩ ⟨d, ns⟩ (fun n => (calls x limits n).block [])
    (Parse.statements limits.maxConstants i) :=
  tracks_loop (fun _ => rfl) (h.laterStatement ns) (Parse.progresses_statementsRound h.advancing) []

omit h in
/-- An expression is read with the rules one level deeper. -/
theorem subexpr (h : Deeper x limits (d + 1) i) (floor : Nat) : Tracks x ⟨d, ns⟩ ⟨d, ns⟩
    (fun n => subexpr x limits (calls x limits n) floor)
    (Parse.operations limits.maxConstants i floor) := by
  have hrest (first : Expr) : Tracks x ⟨d + 1, ns⟩ ⟨d, ns⟩ (fun n => do
      let e ← (calls x limits n).binaries floor first
      leave x
      return e) (Parse.rounds (Parse.operation i floor) first) :=
    (h.binaries ns floor first).after fun e => .silent tracks_leave (tracks_pure e)
  unfold Descent.subexpr Parse.operations
  simp only [← bind_pure_comp, bind_assoc, pure_bind]
  exact .silent (tracks_enter h.le) ((tracks_accept _).bind fun minus =>
    tracksAt_ite ((h.operation ns _).bind fun _ => hrest _) ((h.simpleExpr ns).bind hrest))

end Deeper

/-! ## Levels -/

variable {x : Lexemes} {limits : Limits}

/-- **The machine does what the rules do**, with as many levels left as it has not opened. -/
theorem deeper {levels d : Nat} (h : d + levels = limits.maxDepth) :
    Deeper x limits d (Parse.inner limits.maxConstants levels) := by
  have hadvancing := Parse.deeper_advancing limits.maxConstants levels
  induction levels generalizing d with
  | zero =>
    refine ⟨fun ns floor => ?_, fun hlt => absurd h (Nat.ne_of_lt hlt), fun _ => rfl,
      Nat.le_of_eq h, hadvancing⟩
    exact TracksAt.of_succ (tracks_enter_full h)
  | succ levels ih =>
    have hlt : d < limits.maxDepth := by omega
    have hdeeper : Deeper x limits (d + 1) (Parse.inner limits.maxConstants levels) :=
      ih (by omega) (Parse.deeper_advancing _ _)
    exact ⟨fun ns floor => TracksAt.of_succ (hdeeper.subexpr ns floor),
      fun _ => hdeeper.statements, fun hfull => absurd hfull (Nat.ne_of_lt hlt), Nat.le_of_lt hlt,
      hadvancing⟩

/-- The machine does with a chunk what the rule does. -/
theorem tracks_chunk : Tracks x ⟨0, [1]⟩ ⟨0, [1]⟩ (fun n => chunk x (calls x limits n))
    (Parse.chunk limits) := by
  have hdeeper : Deeper x limits 0 _ := deeper (Nat.zero_add _)
  have hfault : Tracks x ⟨0, [1]⟩ ⟨0, [1]⟩
      (fun _ => (faultNear x (.expected "<eof>") : Run Unit)) _ := tracks_faultNear _
  unfold chunk Parse.chunk
  exact (hdeeper.statements _).bind fun body => tracks_peek.bind fun token =>
    tracksAt_ite (hfault.bind fun _ => tracks_pure _) (tracks_pure _)

end LuaGraph.Chunk.Descent
