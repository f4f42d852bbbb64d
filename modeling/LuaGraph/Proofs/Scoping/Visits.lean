import Mathlib.Data.List.Forall2
import LuaGraph.Proofs.Scoping.Heights
import LuaGraph.Proofs.Scoping.Running

/-!
# Names and scopes that belong together

A run with a record is a run of the tree without notes, and throughout it the open scopes are those
of the blocks around what is being run.

* A scope *fits* a block if its variables are what the block has declared so far.
* A record is *sound* between some blocks if these are the ones being run, if their scopes are open
  and fit them, and if every name so far was resolved rightly (`Visit.Resolves`).
* `Follows Γ Γ' p' p` is a triple about two runs: from a record that is sound between `Γ` the run
  `p'` does to the machine what `p` does. It leaves a sound record between `Γ'`, or fails.

Results: `follows_eval`, `follows_exec` and `follows_execAll`.
-/

namespace LuaGraph.Chunk.Noted

open Run (left bind_apply Quiet)

/-! ## Variables of a scope -/

theorem isSome_lookup_cons (e : String × Value) (scope : Scope) (x : String) :
    (List.lookup x (e :: scope)).isSome = (x == e.1 || (List.lookup x scope).isSome) := by
  rw [List.lookup_cons]
  cases x == e.1 <;> rfl

theorem isSome_lookup_put (name : String) (v : Value) (scope : Scope) (x : String) :
    ((scope.put name v).lookup x).isSome = (x == name || (scope.lookup x).isSome) := by
  induction scope with
  | nil => exact isSome_lookup_cons (name, v) [] x
  | cons e es ih =>
    unfold Scope.put
    split
    · rename_i hname
      rw [isSome_lookup_cons, isSome_lookup_cons, hname, ← Bool.or_assoc, Bool.or_self]
    · rw [isSome_lookup_cons, ih, isSome_lookup_cons, Bool.or_left_comm]

/-! ## Scopes that fit -/

/-- The scope has the variables that the block has declared so far. -/
def Fits (B : Block) (scope : Scope) : Prop :=
  ∀ x, (scope.lookup x).isSome = B.scope.contains x

section

variable {B : Block} {Γ : List Block} {scope : Scope} {scopes : List Scope} {name : String}

theorem fits_locals (body : List Stat) (locals : Scope) :
    Fits ⟨body, locals.map Prod.fst⟩ locals := by
  intro x
  induction locals with
  | nil => rfl
  | cons e es ih =>
    rw [isSome_lookup_cons, ih, List.map_cons, List.contains_cons]

theorem Fits.declare (h : Fits B scope) (name : String) (value : Expr) (v : Value) :
    Fits (B.after (.declare name value)) (scope.put name v) := by
  intro x
  rw [isSome_lookup_put, h x]
  exact List.contains_cons.symm

/-- A variable that was declared gets another value. -/
theorem Fits.put (h : Fits B scope) (hname : (scope.lookup name).isSome = true) (v : Value) :
    Fits B (scope.put name v) := by
  intro x
  rw [isSome_lookup_put, ← h x]
  by_cases hx : x = name
  · rw [hx, hname, Bool.or_true]
  · rw [beq_eq_false_iff_ne.2 hx, Bool.false_or]

theorem fits_assignLocal (h : List.Forall₂ Fits Γ scopes) (name : String) (v : Value) :
    List.Forall₂ Fits Γ (Run.assignLocal name v scopes) := by
  induction h with
  | nil => exact .nil
  | cons hB hΓ ih =>
    unfold Run.assignLocal
    split
    · rename_i hname
      exact .cons (hB.put hname v) hΓ
    · exact .cons hB ih

/-! ## Where a name is bound -/

/-- The name belongs to the `i`-th of the blocks, counted outwards. This is the innermost one that
has declared it, and in its scope is the variable that is read and assigned to. -/
structure BoundAt (Γ : List Block) (scopes : List Scope) (name : String) (i : Nat) (B : Block)
    (scope : Scope) : Prop where
  blockAt : Γ[i]? = some B
  scopeAt : scopes[i]? = some scope
  declared : name ∈ B.scope
  innermost : ∀ j < i, ∀ B', Γ[j]? = some B' → name ∉ B'.scope
  read : Run.local? scopes name = scope.lookup name
  assigned : ∀ v, Run.assignLocal name v scopes = scopes.set i (scope.put name v)

theorem local?_cons (scope : Scope) (scopes : List Scope) (name : String) :
    Run.local? (scope :: scopes) name = (scope.lookup name).or (Run.local? scopes name) := by
  unfold Run.local?
  rw [List.findSome?_cons]
  cases scope.lookup name <;> rfl

/-- Where a name is found, some block has declared it. -/
theorem isSome_local? (h : List.Forall₂ Fits Γ scopes) (name : String) :
    (Run.local? scopes name).isSome = declares (Γ.map Block.scope) name := by
  induction h with
  | nil => rfl
  | cons hB _ ih =>
    rw [local?_cons, Option.isSome_or, ih, hB name]
    rfl

/-- **A name that some block has declared is bound in the scope of the innermost one.** -/
theorem exists_boundAt (h : List.Forall₂ Fits Γ scopes)
    (hname : declares (Γ.map Block.scope) name = true) :
    ∃ i B scope, BoundAt Γ scopes name i B scope := by
  -- outwards from the innermost block, as a name is looked for
  induction h with
  | nil => cases hname
  | @cons B scope Γ scopes hB hΓ ih =>
    have hfits := hB name
    cases hin : B.scope.contains name with
    | true =>
      rw [hin] at hfits
      refine ⟨0, B, scope, rfl, rfl, List.contains_iff_mem.1 hin, fun j hj => by omega, ?_, ?_⟩
      · obtain ⟨v, hv⟩ := Option.isSome_iff_exists.1 hfits
        rw [local?_cons, hv]
        rfl
      · intro v
        unfold Run.assignLocal
        rw [if_pos hfits]
        rfl
    | false =>
      have hout : name ∉ B.scope := fun hmem => by
        rw [List.contains_iff_mem.2 hmem] at hin
        cases hin
      rw [hin] at hfits
      obtain ⟨i, B', scope', hbound⟩ := ih (by simpa [declares, hout] using hname)
      refine ⟨i + 1, B', scope', hbound.blockAt, hbound.scopeAt, hbound.declared, ?_, ?_, ?_⟩
      · intro j hj B'' hB''
        cases j with
        | zero =>
          cases hB''
          exact hout
        | succ j => exact hbound.innermost j (Nat.lt_of_succ_lt_succ hj) B'' hB''
      · have hnone := Option.not_isSome_iff_eq_none.1 (Bool.eq_false_iff.1 hfits)
        rw [local?_cons, hnone, Option.none_or]
        exact hbound.read
      · intro v
        unfold Run.assignLocal
        rw [if_neg (by rw [hfits]; exact Bool.false_ne_true), hbound.assigned v]
        rfl

end

/-- **A name is resolved rightly.** It is one of these occurrences, and the open scopes are those of
the blocks around it. It is found in one of them exactly if the parser has known it, and then it is
bound in the scope of the innermost block that has declared it. -/
structure Visit.Resolves (O : List Occurrence) (v : Visit) : Prop where
  occurs : v.toOccurrence ∈ O
  running : v.running = v.blocks.map Block.body
  height : v.scopes.length = v.blocks.length
  found : (Run.local? v.scopes v.name).isSome = v.known
  bound : v.known = true → ∃ i B scope, BoundAt v.blocks v.scopes v.name i B scope

/-- The occurrences are among those of `O`, and their notes are right. -/
def Within (O os : List Occurrence) : Prop := ∀ o ∈ os, o ∈ O ∧ o.Right

theorem within_append {O os os' : List Occurrence} :
    Within O (os ++ os') ↔ Within O os ∧ Within O os' := List.forall_mem_append

/-! ## Sound records -/

/-- The record is sound between these blocks. -/
structure Sound (O : List Occurrence) (Γ : List Block) (t : Recorder) : Prop where
  fits : List.Forall₂ Fits Γ t.scopes
  running : t.running = Γ.map Block.body
  visits : ∀ v ∈ t.visits, v.Resolves O

section

variable {α β : Type} {O : List Occurrence} {Γ Γ' Γ'' : List Block} {p : Run α}
  {p' : Recording α} {f : α → Run β} {f' : α → Recording β}

/-- **The machine does the same**, from a record that is sound between `Γ`. Then the record is sound
between `Γ'`. -/
def Follows (O : List Occurrence) (Γ Γ' : List Block) (p' : Recording α) (p : Run α) : Prop :=
  ∀ t, Sound O Γ t →
    (∃ a t', p' t = .ok a t' ∧ p t.toMachine = .ok a t'.toMachine ∧ Sound O Γ' t') ∨
    ∃ e t', p' t = .error e t' ∧ p t.toMachine = .error e t'.toMachine ∧
      ∀ v ∈ t'.visits, v.Resolves O

namespace Follows

theorem of_ok (h : Follows O Γ Γ' p' p) {t t' : Recorder} {a : α} (ht : Sound O Γ t)
    (hrun : p' t = .ok a t') : p t.toMachine = .ok a t'.toMachine ∧ Sound O Γ' t' := by
  rcases h t ht with ⟨_, _, hrun', hp, ht'⟩ | ⟨_, _, hrun', -, -⟩
  · cases hrun.symm.trans hrun'
    exact ⟨hp, ht'⟩
  · cases hrun.symm.trans hrun'

theorem of_error (h : Follows O Γ Γ' p' p) {t t' : Recorder} {e : RunFault} (ht : Sound O Γ t)
    (hrun : p' t = .error e t') :
    p t.toMachine = .error e t'.toMachine ∧ ∀ v ∈ t'.visits, v.Resolves O := by
  rcases h t ht with ⟨_, _, hrun', -, -⟩ | ⟨_, _, hrun', hp, hvisits⟩
  · cases hrun.symm.trans hrun'
  · cases hrun.symm.trans hrun'
    exact ⟨hp, hvisits⟩

theorem pure (a : α) : Follows O Γ Γ (Pure.pure a) (Pure.pure a) :=
  fun t ht => .inl ⟨a, t, rfl, rfl, ht⟩

theorem throw (e : RunFault) :
    Follows O Γ Γ' (MonadExcept.throw e : Recording α) (MonadExcept.throw e) :=
  fun t ht => .inr ⟨e, t, rfl, rfl, ht.visits⟩

theorem bind (h : Follows O Γ Γ' p' p) (h' : ∀ a, Follows O Γ' Γ'' (f' a) (f a)) :
    Follows O Γ Γ'' (p' >>= f') (p >>= f) := by
  intro t ht
  rw [bind_apply, bind_apply]
  rcases h t ht with ⟨a, t', hp', hp, ht'⟩ | ⟨e, t', hp', hp, hvisits⟩
  · rw [hp', hp]
    exact h' a t' ht'
  · rw [hp', hp]
    exact .inr ⟨e, t', rfl, rfl, hvisits⟩

/-- A step after which the scopes fit what the same blocks have declared. -/
theorem step (hbodies : Γ'.map Block.body = Γ.map Block.body)
    (hp : ∀ m, List.Forall₂ Fits Γ m.scopes → List.Forall₂ Fits Γ' (left (p m)).scopes) :
    Follows O Γ Γ' (Recording.step p) p := by
  intro t ht
  have hfits := hp t.toMachine ht.fits
  unfold Recording.step
  cases hrun : p t.toMachine with
  | ok a m =>
    rw [hrun] at hfits
    exact .inl ⟨a, _, rfl, rfl, hfits, ht.running.trans hbodies.symm, ht.visits⟩
  | error e m => exact .inr ⟨e, _, rfl, rfl, ht.visits⟩

theorem quiet (hp : Quiet p) : Follows O Γ Γ (Recording.step p) p := by
  refine step rfl fun m hm => ?_
  rw [hp m]
  exact hm

theorem declare {B : Block} (name : String) (value : Expr) (v : Value) :
    Follows O (B :: Γ) (B.after (.declare name value) :: Γ) (Recording.step (Run.declare name v))
      (Run.declare name v) := by
  refine step rfl ?_
  rintro ⟨heap, environment, scopes⟩ (_ | ⟨hB, hΓ⟩)
  exact .cons (hB.declare name value v) hΓ

variable {name : String} {known : Bool} (ho : Within O [⟨name, known, Γ⟩])
include ho

/-- An occurrence is recorded before something is done with it. -/
theorem visit {f' : Unit → Recording α} (h : Follows O Γ Γ' (f' ()) p) :
    Follows O Γ Γ' (Recording.visit ⟨name, known, Γ⟩ >>= f') p := by
  intro t ht
  obtain ⟨hmem, hright⟩ := List.forall_mem_singleton.1 ho
  have hknown : known = declares (Γ.map Block.scope) name := right_iff.1 hright
  have hresolves : Visit.Resolves O ⟨⟨name, known, Γ⟩, t.running, t.scopes⟩ := {
    occurs := hmem
    running := ht.running
    height := ht.fits.length_eq.symm
    found := (isSome_local? ht.fits name).trans hknown.symm
    bound := fun hbound => exists_boundAt ht.fits (hknown.symm.trans hbound) }
  exact h _ ⟨ht.fits, ht.running, List.forall_mem_cons.2 ⟨hresolves, ht.visits⟩⟩

theorem lookup : Follows O Γ Γ (Recording.lookup ⟨name, known, Γ⟩) (Run.lookup name) :=
  visit ho (quiet (.lookup name))

theorem assignName (v : Value) :
    Follows O Γ Γ (Recording.assignName ⟨name, known, Γ⟩ v) (Run.assignName name v) := by
  refine visit ho (step rfl fun m hm => ?_)
  rw [Run.scopes_assignName]
  split
  · exact fits_assignLocal hm name v
  · exact hm

omit ho

/-- A block is opened with its variables, and closed with those that its statements have declared
besides. -/
theorem inBlock {body : List Stat} {B : Block} (locals : Scope)
    (h : Follows O (⟨body, locals.map Prod.fst⟩ :: Γ) (B :: Γ) p' p) :
    Follows O Γ Γ (Recording.inBlock body locals p') (Run.inScope locals p) := by
  intro t ht
  have hopen : Sound O (⟨body, locals.map Prod.fst⟩ :: Γ)
      { t with scopes := locals :: t.scopes, running := body :: t.running } :=
    ⟨.cons (fits_locals body locals) ht.fits, congrArg _ ht.running, ht.visits⟩
  unfold Recording.inBlock Run.inScope
  rcases h _ hopen with ⟨a, t', hp', hp, ht'⟩ | ⟨e, t', hp', hp, hvisits⟩
  · rw [hp', hp]
    refine .inl ⟨a, _, rfl, rfl, ?_, congrArg (List.drop 1) ht'.running, ht'.visits⟩
    obtain ⟨_, _, -, hΓ, hscopes⟩ := List.forall₂_cons_left_iff.1 ht'.fits
    show List.Forall₂ Fits Γ (t'.scopes.drop 1)
    rw [hscopes]
    exact hΓ
  · rw [hp', hp]
    exact .inr ⟨e, _, rfl, rfl, hvisits⟩

variable {body : Value → Run Unit} {body' : Value → Recording Unit}
  (hbody : ∀ v, Follows O Γ Γ (body' v) (body v))
include hbody

theorem integerLoop (limit : Float) (step i : Int) :
    Follows O Γ Γ (Recording.integerLoop body' limit step i)
      (Run.integerLoop body limit step i) := by
  intro t ht
  fun_induction Recording.integerLoop body' limit step i t with
  | case1 i t hwithin e t' hrun =>
    obtain ⟨hplain, hvisits⟩ := (hbody _).of_error ht hrun
    rw [Run.integerLoop, if_pos hwithin, hplain]
    exact .inr ⟨e, t', rfl, rfl, hvisits⟩
  | case2 i t hwithin t' hrun hnext ih =>
    obtain ⟨hplain, ht'⟩ := (hbody _).of_ok ht hrun
    rw [Run.integerLoop, if_pos hwithin, hplain]
    dsimp only
    rw [dif_pos hnext]
    exact ih ht'
  | case3 i t hwithin t' hrun hlast =>
    obtain ⟨hplain, ht'⟩ := (hbody _).of_ok ht hrun
    rw [Run.integerLoop, if_pos hwithin, hplain]
    dsimp only
    rw [dif_neg hlast]
    exact .inl ⟨(), t', rfl, rfl, ht'⟩
  | case4 i t hpast =>
    rw [Run.integerLoop, if_neg hpast]
    exact .inl ⟨(), t, rfl, rfl, ht⟩

theorem floatLoop (limit step : Float) (rounds : Nat) (x : Float) :
    Follows O Γ Γ (Recording.floatLoop body' limit step rounds x)
      (Run.floatLoop body limit step rounds x) := by
  induction rounds generalizing x with
  | zero => exact fun t ht => .inr ⟨_, t, rfl, rfl, ht.visits⟩
  | succ rounds ih =>
    intro t ht
    unfold Recording.floatLoop Run.floatLoop
    split
    · rcases hbody (.number (.float x)) t ht with
        ⟨_, t', hrun', hrun, ht'⟩ | ⟨e, t', hrun', hrun, hvisits⟩
      · rw [hrun', hrun]
        exact ih _ t' ht'
      · rw [hrun', hrun]
        exact .inr ⟨e, t', rfl, rfl, hvisits⟩
    · exact .inl ⟨(), t, rfl, rfl, ht⟩

theorem loop (start limit step : Number) :
    Follows O Γ Γ (Recording.loop body' start limit step) (Run.loop body start limit step) := by
  have hfloat (start step : Float) : Follows O Γ Γ
      (if Binary64.equal step 0 then MonadExcept.throw .stepZero
        else Recording.floatLoop body' limit.toFloat step Run.endlessRounds start)
      (if Binary64.equal step 0 then MonadExcept.throw .stepZero
        else Run.floatLoop body limit.toFloat step Run.endlessRounds start) := by
    split
    · exact throw _
    · exact floatLoop hbody _ _ _ _
  cases start with
  | float x => exact hfloat x step.toFloat
  | integer i =>
    cases step with
    | float x => exact hfloat (Number.integer i).toFloat x
    | integer step =>
      unfold Recording.loop Run.loop
      dsimp only
      split
      · exact throw _
      · exact integerLoop hbody _ _ _

end Follows

end

/-! ## Evaluation -/

variable {O : List Occurrence}

mutual

/-- **An evaluation resolves its names rightly.** -/
theorem follows_eval (Γ : List Block) : (e : Expr) → Within O (e.occurrences Γ) →
    Follows O Γ Γ (e.eval Γ) e.erase.eval
  | .nil, _ => .pure _
  | .boolean _, _ => .pure _
  | .number _, _ => .pure _
  | .string _, _ => .pure _
  | .name _ _, h => .lookup h
  | .index object key, h => by
    obtain ⟨hobject, hkey⟩ := within_append.1 h
    exact (follows_eval Γ object hobject).bind fun _ => (follows_eval Γ key hkey).bind fun _ =>
      .quiet (.index _ _)
  | .function _, _ => (Follows.quiet .newFunction).bind fun _ => .pure _
  | .call callee args, h => by
    obtain ⟨hcallee, hargs⟩ := within_append.1 h
    unfold Expr.eval Expr.erase Chunk.Expr.eval
    refine (follows_evalAll Γ args hargs).bind fun _ => ?_
    -- a function is run only here, between the blocks that it is written in
    cases callee with
    | function body =>
      exact (Follows.inBlock [] (follows_execAll ⟨body, []⟩ Γ body hcallee)).bind fun _ => .pure _
    | _ => exact (follows_eval Γ _ hcallee).bind fun _ => .throw _
  | .table parts, h => (Follows.quiet .newTable).bind fun t =>
      (follows_fill Γ t 0 parts h).bind fun _ => .pure _
  | .negate operand, h => (follows_eval Γ operand h).bind fun _ => .quiet (.negate _)
  | .binary _ left right, h => by
    obtain ⟨hleft, hright⟩ := within_append.1 h
    exact (follows_eval Γ left hleft).bind fun _ => (Follows.quiet (.number _ _)).bind fun _ =>
      (follows_eval Γ right hright).bind fun _ =>
        (Follows.quiet (.number _ _)).bind fun _ => .pure _

theorem follows_evalAll (Γ : List Block) : (es : List Expr) →
    Within O (argsOccurrences Γ es) →
    Follows O Γ Γ (evalAll Γ es) (Chunk.evalAll (eraseArgs es))
  | [], _ => .pure _
  | e :: es, h => by
    obtain ⟨he, hes⟩ := within_append.1 h
    exact (follows_eval Γ e he).bind fun _ => follows_evalAll Γ es hes

theorem follows_fill (Γ : List Block) (t : TableId) (position : Nat) : (parts : List Part) →
    Within O (partsOccurrences Γ parts) →
    Follows O Γ Γ (fill Γ t position parts) (Chunk.fill t position (eraseParts parts))
  | [], _ => .pure _
  | .item value :: parts, h => by
    obtain ⟨hvalue, hparts⟩ := within_append.1 h
    exact (follows_eval Γ value hvalue).bind fun _ =>
      (Follows.quiet (.setEntry _ _ _)).bind fun _ => follows_fill Γ t (position + 1) parts hparts
  | .pair key value :: parts, h => by
    obtain ⟨hpair, hparts⟩ := within_append.1 h
    obtain ⟨hkey, hvalue⟩ := within_append.1 hpair
    exact (follows_eval Γ key hkey).bind fun _ => (follows_eval Γ value hvalue).bind fun _ =>
      (Follows.quiet (.setEntry _ _ _)).bind fun _ => follows_fill Γ t position parts hparts

/-- **A statement resolves its names rightly**, and declares what it says. -/
theorem follows_exec (B : Block) (Γ : List Block) : (s : Stat) →
    Within O (s.occurrences (B :: Γ)) →
    Follows O (B :: Γ) (B.after s :: Γ) (s.exec (B :: Γ)) s.erase.exec
  | .declare name value, h => (follows_eval (B :: Γ) value h).bind fun _ => .declare name value _
  | .assign target value, h => by
    obtain ⟨htarget, hvalue⟩ := within_append.1 h
    unfold Stat.exec Stat.erase Chunk.Stat.exec
    refine (follows_eval (B :: Γ) value hvalue).bind fun v => ?_
    cases target with
    | name s known => exact .assignName htarget v
    | index object key =>
      obtain ⟨hobject, hkey⟩ := within_append.1 htarget
      exact (follows_eval (B :: Γ) object hobject).bind fun _ =>
        (follows_eval (B :: Γ) key hkey).bind fun _ => .quiet (.assignIndex _ _ _)
    | _ => exact .throw _
  | .loop counter start limit step body, h => by
    obtain ⟨hstart, h⟩ := within_append.1 h
    obtain ⟨hlimit, h⟩ := within_append.1 h
    obtain ⟨hstep, hbody⟩ := within_append.1 h
    exact (follows_eval (B :: Γ) start hstart).bind fun _ =>
      (Follows.quiet (.number _ _)).bind fun _ =>
        (follows_eval (B :: Γ) limit hlimit).bind fun _ =>
          (Follows.quiet (.number _ _)).bind fun _ =>
            (follows_eval (B :: Γ) step hstep).bind fun _ =>
              (Follows.quiet (.number _ _)).bind fun _ => .loop (fun v => .inBlock [(counter, v)]
                (follows_execAll ⟨body, [counter]⟩ (B :: Γ) body hbody)) _ _ _
  | .block body, h => .inBlock [] (follows_execAll ⟨body, []⟩ (B :: Γ) body h)
  | .call callee, h => (follows_eval (B :: Γ) callee h).bind fun _ => .pure _

theorem follows_execAll (B : Block) (Γ : List Block) : (ss : List Stat) →
    Within O (bodyOccurrences B Γ ss) →
    Follows O (B :: Γ) (⟨B.body, scopeAfter B.scope ss⟩ :: Γ) (execAll B Γ ss)
      (Chunk.execAll (eraseBody ss))
  | [], _ => .pure _
  | s :: ss, h => by
    obtain ⟨hs, hss⟩ := within_append.1 h
    exact (follows_exec B Γ s hs).bind fun _ => follows_execAll (B.after s) Γ ss hss

end

end LuaGraph.Chunk.Noted
