import LuaGraph.Chunk.Run

/-!
# What a run leaves open

A run (`exec_block`, `scoped`) leaves a machine behind, after a fault too.

* A run is *quiet* if it leaves the scopes as they were.
* A run is *level* if it leaves as many scopes open as there were. So is every evaluation, every
  statement and every block, whether it fails or not: what opens a scope closes it.

Results: `level_eval`, `level_exec` and `level_execAll`.
-/

namespace LuaGraph.Chunk

namespace Run

section

variable {ε σ α β : Type}

/-- The state that is left behind, after a fault too. -/
def left : EStateM.Result ε σ α → σ
  | .ok _ s => s
  | .error _ s => s

theorem bind_apply (p : EStateM ε σ α) (f : α → EStateM ε σ β) (s : σ) :
    (p >>= f) s = match p s with
      | .ok a s => f a s
      | .error e s => .error e s := rfl

end

variable {α β : Type} {p : Run α} {f : α → Run β}

/-- The run leaves the scopes as they were. -/
def Quiet (p : Run α) : Prop := ∀ m, (left (p m)).scopes = m.scopes

/-- The run leaves as many scopes open as there were. -/
def Level (p : Run α) : Prop := ∀ m, (left (p m)).scopes.length = m.scopes.length

/-! ## Quiet runs -/

namespace Quiet

theorem level (h : Quiet p) : Level p := fun m => congrArg List.length (h m)

theorem pure (a : α) : Quiet (Pure.pure a : Run α) := fun _ => rfl

theorem throw (e : RunFault) : Quiet (MonadExcept.throw e : Run α) := fun _ => rfl

/-- The machine is looked at first. -/
theorem get {f : Machine → Run α} (h : ∀ m, Quiet (f m)) : Quiet (MonadState.get >>= f) :=
  fun m => h m m

theorem lookup (name : String) : Quiet (Run.lookup name) := by
  refine get fun m => ?_
  cases local? m.scopes name with
  | some v => exact pure v
  | none =>
    dsimp only
    split
    · exact pure _
    · exact pure _

theorem setEntry (t : TableId) (k v : Value) : Quiet (Run.setEntry t k v) := by
  intro m
  unfold Run.setEntry
  cases k.toKey <;> rfl

theorem newTable : Quiet Run.newTable := fun _ => rfl

theorem newFunction : Quiet Run.newFunction := fun _ => rfl

theorem assignIndex (object k v : Value) : Quiet (Run.assignIndex object k v) := by
  cases object with
  | table t => exact setEntry t k v
  | _ => exact throw _

theorem index (object k : Value) : Quiet (Run.index object k) := by
  cases object with
  | table t => exact fun _ => rfl
  | _ => exact throw _

theorem number (role : Role) (v : Value) : Quiet (Run.number role v) := by
  cases v with
  | number n => exact pure n
  | _ => exact throw _

theorem negate (v : Value) : Quiet (Run.negate v) := by
  cases v with
  | number n => cases n <;> exact pure _
  | _ => exact throw _

end Quiet

/-! ## Level runs -/

/-- Only a variable that is found is changed in its scope. -/
theorem scopes_assignName (name : String) (v : Value) (m : Machine) :
    (left (assignName name v m)).scopes =
      if (local? m.scopes name).isSome then assignLocal name v m.scopes else m.scopes := by
  show (left ((if (local? m.scopes name).isSome then
      modify fun m => { m with scopes := assignLocal name v m.scopes }
    else if name = "_ENV" then throw .assignEnvironment
    else Run.setEntry m.environment (.string name) v : Run Unit) m)).scopes = _
  split
  · rfl
  split
  · rfl
  · exact Quiet.setEntry _ _ _ m

theorem length_assignLocal (name : String) (v : Value) (scopes : List Scope) :
    (assignLocal name v scopes).length = scopes.length := by
  induction scopes with
  | nil => rfl
  | cons scope scopes ih =>
    unfold assignLocal
    split
    · rfl
    · exact congrArg (· + 1) ih

namespace Level

theorem of_eq (h : Level p) {m : Machine} {r : EStateM.Result RunFault Machine α} (hrun : p m = r) :
    (left r).scopes.length = m.scopes.length := hrun ▸ h m

theorem bind (hp : Level p) (hf : ∀ a, Level (f a)) : Level (p >>= f) := by
  intro m
  rw [bind_apply]
  cases hrun : p m with
  | ok a m' => exact (hf a m').trans (hp.of_eq hrun)
  | error e m' => exact hp.of_eq hrun

theorem declare (name : String) (v : Value) : Level (Run.declare name v) := by
  rintro ⟨heap, environment, scopes⟩
  cases scopes <;> rfl

theorem assignName (name : String) (v : Value) : Level (Run.assignName name v) := by
  intro m
  rw [scopes_assignName]
  split
  · exact length_assignLocal name v m.scopes
  · rfl

/-- **What runs in a scope of its own closes it in any case.** -/
theorem inScope (locals : Scope) (hp : Level p) : Level (Run.inScope locals p) := by
  intro m
  unfold Run.inScope
  cases hrun : p { m with scopes := locals :: m.scopes } with
  | ok a m' => exact (List.length_drop ..).trans (congrArg (· - 1) (hp.of_eq hrun))
  | error e m' => exact (List.length_drop ..).trans (congrArg (· - 1) (hp.of_eq hrun))

variable {body : Value → Run Unit} (hbody : ∀ v, Level (body v))
include hbody

theorem integerLoop (limit : Float) (step i : Int) :
    Level (Run.integerLoop body limit step i) := by
  intro m
  fun_induction Run.integerLoop body limit step i m with
  | case1 i m hwithin e m' hrun => exact (hbody _).of_eq hrun
  | case2 i m hwithin m' hrun hnext ih => exact ih.trans ((hbody _).of_eq hrun)
  | case3 i m hwithin m' hrun hlast => exact (hbody _).of_eq hrun
  | case4 i m hpast => rfl

theorem floatLoop (limit step : Float) (rounds : Nat) (x : Float) :
    Level (Run.floatLoop body limit step rounds x) := by
  induction rounds generalizing x with
  | zero => exact fun m => rfl
  | succ rounds ih =>
    intro m
    unfold Run.floatLoop
    split
    · cases hrun : body (.number (.float x)) m with
      | ok _ m' => exact (ih _ m').trans ((hbody _).of_eq hrun)
      | error e m' => exact (hbody _).of_eq hrun
    · rfl

theorem loop (start limit step : Number) : Level (Run.loop body start limit step) := by
  have hfloat (start step : Float) : Level (if Binary64.equal step 0 then throw .stepZero
      else Run.floatLoop body limit.toFloat step endlessRounds start) := by
    split
    · exact (Quiet.throw _).level
    · exact floatLoop hbody _ _ _ _
  cases start with
  | float x => exact hfloat x step.toFloat
  | integer i =>
    cases step with
    | float x => exact hfloat (Number.integer i).toFloat x
    | integer step =>
      unfold Run.loop
      dsimp only
      split
      · exact (Quiet.throw _).level
      · exact integerLoop hbody _ _ _

end Level

end Run

/-! ## Evaluation -/

open Run

mutual

/-- **An evaluation is level.** -/
theorem level_eval : (e : Expr) → Level e.eval
  | .nil => (Quiet.pure _).level
  | .boolean _ => (Quiet.pure _).level
  | .number _ => (Quiet.pure _).level
  | .string _ => (Quiet.pure _).level
  | .name s => (Quiet.lookup s).level
  | .index object key =>
    (level_eval object).bind fun _ => (level_eval key).bind fun _ => (Quiet.index _ _).level
  | .function _ => Quiet.newFunction.level.bind fun _ => (Quiet.pure _).level
  | .call callee args => by
    unfold Expr.eval
    refine (level_evalAll args).bind fun _ => ?_
    cases callee with
    | function body => exact ((level_execAll body).inScope []).bind fun _ => (Quiet.pure _).level
    | _ => exact (level_eval _).bind fun _ => (Quiet.throw _).level
  | .table parts => Quiet.newTable.level.bind fun t =>
      (level_fill t 0 parts).bind fun _ => (Quiet.pure _).level
  | .negate operand => (level_eval operand).bind fun _ => (Quiet.negate _).level
  | .binary _ left right =>
    (level_eval left).bind fun _ => (Quiet.number _ _).level.bind fun _ =>
      (level_eval right).bind fun _ => (Quiet.number _ _).level.bind fun _ => (Quiet.pure _).level

theorem level_evalAll : (es : List Expr) → Level (evalAll es)
  | [] => (Quiet.pure _).level
  | e :: es => (level_eval e).bind fun _ => level_evalAll es

theorem level_fill (t : TableId) (position : Nat) : (parts : List Part) →
    Level (fill t position parts)
  | [] => (Quiet.pure _).level
  | .item value :: parts =>
    (level_eval value).bind fun _ => (Quiet.setEntry _ _ _).level.bind fun _ =>
      level_fill t (position + 1) parts
  | .pair key value :: parts =>
    (level_eval key).bind fun _ => (level_eval value).bind fun _ =>
      (Quiet.setEntry _ _ _).level.bind fun _ => level_fill t position parts

/-- **A statement is level.** -/
theorem level_exec : (s : Stat) → Level s.exec
  | .declare name value => (level_eval value).bind fun _ => .declare name _
  | .assign target value => by
    unfold Stat.exec
    refine (level_eval value).bind fun v => ?_
    cases target with
    | name s => exact .assignName s v
    | index object key =>
      exact (level_eval object).bind fun _ => (level_eval key).bind fun _ =>
        (Quiet.assignIndex _ _ _).level
    | _ => exact (Quiet.throw _).level
  | .loop counter start limit step body =>
    (level_eval start).bind fun _ => (Quiet.number _ _).level.bind fun _ =>
      (level_eval limit).bind fun _ => (Quiet.number _ _).level.bind fun _ =>
        (level_eval step).bind fun _ => (Quiet.number _ _).level.bind fun _ =>
          .loop (fun _ => (level_execAll body).inScope _) _ _ _
  | .block body => (level_execAll body).inScope []
  | .call callee => (level_eval callee).bind fun _ => (Quiet.pure _).level

/-- **Statements are level.** -/
theorem level_execAll : (ss : List Stat) → Level (execAll ss)
  | [] => (Quiet.pure _).level
  | s :: ss => (level_exec s).bind fun _ => level_execAll ss

end

end LuaGraph.Chunk
