import LuaGraph.Proofs.Chunk.Rounds
import LuaGraph.Proofs.Scoping.Parsing

/-!
# Notes do not change what is parsed

The rules with notes are run beside those without.

* `State.scopes` are the scopes of all open functions. The parser knows a name as a local variable
  (`is_local`) if one of them has it.
* `Lockstep N p' p Q` is a triple about two parsers: from a state with the scopes `N` both fail with
  the same fault, or both succeed in the same state. Then `Q` holds of what they have parsed and of
  the scopes that are left.
* A parser is *still* if it leaves the scopes as they are. The other steps open and close scopes and
  functions, or declare a name.

Result: `Lockstep.rounds`, repetitions are in lockstep if their rounds are.
-/

namespace LuaGraph.Chunk

/-- The scopes of the open functions, the innermost function and in it the innermost scope first. -/
abbrev Scopes := List (List (List String))

/-- The scopes of the open functions. -/
def State.scopes (s : State) : Scopes := (s.frame :: s.outer).map Frame.scopes

namespace Noted

open Parse

theorem isLocal_eq (s : State) (name : String) :
    s.isLocal name = declares s.scopes.flatten name := by
  unfold State.isLocal declares State.scopes
  rw [List.any_flatten, List.any_map]
  rfl

/-! ## Steps in lockstep -/

section

variable {α β ν μ : Type} {N : Scopes} {p : Parse α} {p' : Parse ν}
  {f : α → Parse β} {f' : ν → Parse μ} {Q : ν → α → Scopes → Prop} {R : μ → β → Scopes → Prop}

/-- **The parsers do the same**, from any state with the scopes `N`. -/
def Lockstep (N : Scopes) (p' : Parse ν) (p : Parse α) (Q : ν → α → Scopes → Prop) : Prop :=
  ∀ s, s.scopes = N → (∃ e, p' s = .error e ∧ p s = .error e) ∨
    ∃ x a s', p' s = .ok (x, s') ∧ p s = .ok (a, s') ∧ Q x a s'.scopes

/-- What was parsed is the same without notes, these are right, and the scopes are `N`. -/
def Kept (N : Scopes) (erase : ν → α) (right : ν → Prop) (x : ν) (a : α) (N' : Scopes) : Prop :=
  N' = N ∧ erase x = a ∧ right x

/-- A round goes on in both, or it ends the repetition in both. -/
def RoundOf (I : ν → α → Scopes → Prop) (R : μ → β → Scopes → Prop) (y : ν ⊕ μ) (b : α ⊕ β)
    (N' : Scopes) : Prop := Sum.LiftRel (I · · N') (R · · N') y b

namespace Lockstep

theorem bind (h : Lockstep N p' p Q) (h' : ∀ x a N', Q x a N' → Lockstep N' (f' x) (f a) R) :
    Lockstep N (p' >>= f') (p >>= f) R := by
  intro s hs
  rcases h s hs with ⟨e, hp', hp⟩ | ⟨x, a, s', hp', hp, hQ⟩
  · exact .inl ⟨e, bind_eq_error.2 (.inl hp'), bind_eq_error.2 (.inl hp)⟩
  · rw [run_bind hp', run_bind hp]
    exact h' x a _ hQ s' rfl

theorem pure {x : ν} {a : α} (h : Q x a N) : Lockstep N (Pure.pure x) (Pure.pure a) Q :=
  fun s hs => .inr ⟨x, a, s, rfl, rfl, hs ▸ h⟩

theorem fault (e : GrammarFault) : Lockstep N (Parse.fault e) (Parse.fault e) Q :=
  fun _ _ => .inl ⟨_, rfl, rfl⟩

theorem faultNear (e : String → GrammarFault) :
    Lockstep N (Parse.faultNear e) (Parse.faultNear e) Q :=
  fun _ _ => .inl ⟨_, rfl, rfl⟩

theorem ite {c : Prop} [Decidable c] {p₁ : Parse α} {p₁' : Parse ν} (h : Lockstep N p' p Q)
    (h' : Lockstep N p₁' p₁ Q) :
    Lockstep N (if c then p' else p₁') (if c then p else p₁) Q := by
  split
  · exact h
  · exact h'

/-- Something that leaves the scopes as they were before anything else. -/
theorem andThen {erase : ν → α} {right : ν → Prop} (h : Lockstep N p' p (Kept N erase right))
    (h' : ∀ x, right x → Lockstep N (f' x) (f (erase x)) R) :
    Lockstep N (p' >>= f') (p >>= f) R := by
  refine h.bind ?_
  rintro x _ _ ⟨rfl, rfl, hx⟩
  exact h' x hx

/-- The same step before anything else. It changes the scopes in a way of its own. -/
theorem step {c : State → State} {p : Parse Unit} {f : Unit → Parse β} {f' : Unit → Parse μ}
    {N' : Scopes} (hp : ∀ s, p s = .ok ((), c s)) (hc : ∀ s, s.scopes = N → (c s).scopes = N')
    (h : Lockstep N' (f' ()) (f ()) R) : Lockstep N (p >>= f') (p >>= f) R := by
  intro s hs
  rw [run_bind (hp s), run_bind (hp s)]
  exact h _ (hc s hs)

/-- The state is looked at before anything else. -/
theorem get {f : State → Parse β} {f' : State → Parse μ}
    (h : ∀ s, s.scopes = N → Lockstep N (f' s) (f s) R) :
    Lockstep N (MonadState.get >>= f') (MonadState.get >>= f) R :=
  fun s hs => h s hs s hs

/-- Some function is open. -/
theorem of_open (h : N ≠ [] → Lockstep N p' p Q) : Lockstep N p' p Q := by
  intro s hs
  refine h ?_ s hs
  rw [← hs]
  exact List.cons_ne_nil _ _

variable {I : ν → α → Scopes → Prop} {x : ν} {a : α}

theorem roundsWithin {f : α → Parse (α ⊕ β)} {f' : ν → Parse (ν ⊕ μ)}
    (h : ∀ x a N, I x a N → Lockstep N (f' x) (f a) (RoundOf I R))
    (left : List Lexeme) (hI : I x a N) :
    Lockstep N (Parse.roundsWithin f' left x) (Parse.roundsWithin f left a) R := by
  -- both are allowed as many rounds, and the scopes may be others in each of them
  induction left generalizing x a N with
  | nil =>
    unfold Parse.roundsWithin
    refine (h x a N hI).bind fun y b N' hyb => ?_
    cases hyb with
    | inl hnext => exact faultNear _
    | inr hlast => exact pure hlast
  | cons l left ih =>
    unfold Parse.roundsWithin
    refine (h x a N hI).bind fun y b N' hyb => ?_
    cases hyb with
    | inl hnext => exact ih hnext
    | inr hlast => exact pure hlast

/-- **Repetitions are in lockstep if their rounds are.** -/
theorem rounds {f : α → Parse (α ⊕ β)} {f' : ν → Parse (ν ⊕ μ)}
    (h : ∀ x a N, I x a N → Lockstep N (f' x) (f a) (RoundOf I R))
    (hI : I x a N) : Lockstep N (Parse.rounds f' x) (Parse.rounds f a) R :=
  fun s hs => roundsWithin h s.lexemes hI s hs

end Lockstep

end

/-! ## Steps that leave the scopes as they are -/

section

variable {α β ν : Type} {N : Scopes} {p : Parse α} {f : α → Parse β} {f' : α → Parse ν}
  {Q : ν → β → Scopes → Prop}

/-- The parser leaves the scopes as they are. -/
def Still (p : Parse α) : Prop := ∀ s a s', p s = .ok (a, s') → s'.scopes = s.scopes

namespace Still

theorem bind (hp : Still p) (hf : ∀ a, Still (f a)) : Still (p >>= f) := by
  intro s b s'' hrun
  obtain ⟨a, s', hfirst, hrest⟩ := bind_eq_ok.1 hrun
  exact (hf a s' b s'' hrest).trans (hp s a s' hfirst)

theorem pure (a : α) : Still (Pure.pure a : Parse α) := by
  rintro s _ _ ⟨⟩
  rfl

theorem fault (e : GrammarFault) : Still (Parse.fault e : Parse α) := by
  rintro s _ _ ⟨⟩

theorem faultNear (e : String → GrammarFault) : Still (Parse.faultNear e : Parse α) := by
  rintro s _ _ ⟨⟩

theorem peek : Still Parse.peek := by
  rintro s _ _ ⟨⟩
  rfl

theorem peekSecond : Still Parse.peekSecond := by
  rintro s _ _ ⟨⟩
  rfl

theorem advance : Still Parse.advance := by
  rintro s _ _ ⟨⟩
  rfl

theorem accept (t : Token) : Still (Parse.accept t) := by
  refine (peek.bind fun _ => pure _).bind fun found => ?_
  cases found with
  | true => exact advance.bind fun _ => pure _
  | false => exact pure _

theorem expect (t : Token) : Still (Parse.expect t) := by
  refine (accept t).bind fun found => ?_
  cases found with
  | true => exact pure _
  | false => exact faultNear _

theorem expectName : Still Parse.expectName := by
  refine peek.bind fun token => ?_
  cases token with
  | none => exact faultNear _
  | some t =>
    cases t with
    | name s => exact advance.bind fun _ => pure _
    | _ => exact faultNear _

theorem separator : Still Parse.separator := by
  refine (accept _).bind fun found => ?_
  cases found with
  | true => exact pure _
  | false => exact accept _

theorem addConstant (max : Nat) (c : Constant) : Still (Parse.addConstant max c) := by
  intro s _ s' hrun
  obtain ⟨hs', -⟩ := addConstant_eq_ok_iff.1 hrun
  cases hs'
  rfl

/-- The same step before anything else. -/
theorem andThen (hp : Still p) (h : ∀ a, Lockstep N (f' a) (f a) Q) :
    Lockstep N (p >>= f') (p >>= f) Q := by
  refine Lockstep.bind (Q := fun x a N' => x = a ∧ N' = N) (fun s hs => ?_) ?_
  · cases hrun : p s with
    | error e => exact .inl ⟨e, rfl, rfl⟩
    | ok r => exact .inr ⟨r.1, r.1, r.2, rfl, rfl, rfl, (hp s r.1 r.2 hrun).trans hs⟩
  · rintro a _ _ ⟨rfl, rfl⟩
    exact h a

end Still

/-! ## Steps that change the scopes -/

variable {Γ : List (List String)} {scope : List String} {M : Scopes} {f : Unit → Parse β}
  {f' : Unit → Parse ν}

theorem lockstep_openScope (h : Lockstep (([] :: Γ) :: M) (f' ()) (f ()) Q) :
    Lockstep (Γ :: M) (openScope >>= f') (openScope >>= f) Q := by
  refine .step (fun _ => rfl) (fun s hs => ?_) h
  obtain ⟨hframe, houter⟩ := List.cons.inj hs
  exact congrArg₂ _ (congrArg _ hframe) houter

theorem lockstep_closeScope (h : Lockstep (Γ :: M) (f' ()) (f ()) Q) :
    Lockstep ((scope :: Γ) :: M) (closeScope >>= f') (closeScope >>= f) Q := by
  refine .step (fun _ => rfl) (fun s hs => ?_) h
  obtain ⟨hframe, houter⟩ := List.cons.inj hs
  exact congrArg₂ _ (congrArg (List.drop 1) hframe) houter

theorem lockstep_openFunction (h : Lockstep ([[]] :: N) (f' ()) (f ()) Q) :
    Lockstep N (openFunction >>= f') (openFunction >>= f) Q :=
  .step (fun _ => rfl) (fun _ hs => congrArg ([[]] :: ·) hs) h

theorem lockstep_closeFunction (hN : N ≠ []) (h : Lockstep N (f' ()) (f ()) Q) :
    Lockstep (Γ :: N) (closeFunction >>= f') (closeFunction >>= f) Q := by
  refine .step (fun _ => rfl) (fun s hs => ?_) h
  obtain ⟨-, houter⟩ := List.cons.inj hs
  obtain ⟨frame, outer, hcons⟩ : ∃ frame outer, s.outer = frame :: outer :=
    List.exists_cons_of_ne_nil fun hnil => hN (by rw [← houter, hnil]; rfl)
  unfold State.scopes
  rw [← houter, hcons]
  rfl

theorem lockstep_declare (name : String)
    (h : Lockstep (((name :: scope) :: Γ) :: M) (f' ()) (f ()) Q) :
    Lockstep ((scope :: Γ) :: M) (Parse.declare name >>= f') (Parse.declare name >>= f) Q := by
  refine .step (fun _ => rfl) (fun s hs => ?_) h
  obtain ⟨hframe, houter⟩ := List.cons.inj hs
  refine congrArg₂ _ ?_ houter
  dsimp only
  rw [hframe]

/-- The names are declared one after the other, so the last one comes first. -/
theorem lockstep_declareAll (names : List String)
    (h : Lockstep (((names.reverse ++ scope) :: Γ) :: M) (f' ()) (f ()) Q) :
    Lockstep ((scope :: Γ) :: M) (names.forM Parse.declare >>= f')
      (names.forM Parse.declare >>= f) Q := by
  induction names generalizing scope with
  | nil => exact h
  | cons name names ih =>
    show Lockstep _ ((Parse.declare name >>= fun _ => names.forM Parse.declare) >>= f')
      ((Parse.declare name >>= fun _ => names.forM Parse.declare) >>= f) Q
    rw [bind_assoc, bind_assoc]
    refine lockstep_declare name (ih ?_)
    rw [List.reverse_cons, List.append_assoc] at h
    exact h

end

end Noted

end LuaGraph.Chunk
