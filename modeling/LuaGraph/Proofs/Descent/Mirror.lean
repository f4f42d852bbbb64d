import Mathlib.Order.Filter.AtTopBot.Basic
import LuaGraph.Proofs.Chunk.Rounds
import LuaGraph.Proofs.Descent.Run

/-!
# Two runs over the same tokens

A run of the machine is compared with a run of the rules of the grammar. These keep no cursor and
count nothing: they are given the tokens that are left, and how many levels may still be opened.

* Two states *mirror* one another if they have come to the same place of the same text, with the
  same functions open (`Mirrors`).
* The *shape* of a state is what it has open.
* A run is a sequence here: its `n`-th member may have so many calls and rounds open at a time. It
  *ends* if all members from some number on come to the same (`Returns`, `Fails`).
* `Tracks x S S' r p` is a triple about two runs: from states that mirror one another the machine
  does by `r` what the rule `p` does, and has `S'` open after it if it had `S` open before. So its
  run ends, and it does not break.
* `TracksAt` says so in front of some tokens only. That is where tokens can be taken.

Results: each step of the machine tracks one of the rules, and a loop tracks a repetition whose
rounds take tokens (`tracks_loop`).
-/

open Filter (atTop)

namespace LuaGraph.Chunk.Descent

/-! ## States -/

/-- What is open: the number of levels, and the number of scopes of each function. -/
structure Shape where
  depth : Nat
  scopes : List Nat
deriving DecidableEq

/-- What a state has open. -/
def shape (m : Descent) : Shape := ⟨m.depth, m.functions.map fun f => f.scopes.length⟩

/-- The states have come to the same place of the same text, with the same functions. -/
structure Mirrors (x : Lexemes) (m : Descent) (s : State) : Prop where
  cursor : m.cursor ≤ x.lexemes.length
  lexemes : s.lexemes = x.lexemes.drop m.cursor
  stop : s.stop = x.stop
  functions : m.functions = s.frame :: s.outer

/-! ## Runs that end -/

section

variable {α β : Type} {r : Nat → Run α} {f : Nat → α → Run β} {m m' : Descent} {a : α}
  {e : Position × GrammarFault}

/-- The run ends with a fault. -/
def Fails (r : Nat → Run α) (m : Descent) (e : Position × GrammarFault) : Prop :=
  ∀ᶠ n in atTop, r n m = some (.error (.fault e))

/-- The run ends with a result. -/
def Returns (r : Nat → Run α) (m : Descent) (a : α) (m' : Descent) : Prop :=
  ∀ᶠ n in atTop, r n m = some (.ok (a, m'))

theorem run_bind {r : Run α} {f : α → Run β} (h : r m = some (.ok (a, m'))) :
    (r >>= f) m = f a m' := by
  show (r m >>= fun y => f y.1 y.2) = _
  rw [show r m = ExceptT.mk (some (.ok (a, m'))) from h]
  rfl

theorem run_bind_fault {r : Run α} {f : α → Run β} (h : r m = some (.error (.fault e))) :
    (r >>= f) m = some (.error (.fault e)) := by
  show (r m >>= fun y => f y.1 y.2) = _
  rw [show r m = ExceptT.mk (some (.error (.fault e))) from h]
  rfl

theorem Returns.bind (h : Returns r m a m') : ∀ᶠ n in atTop, (r n >>= f n) m = f n a m' :=
  h.mono fun _ => run_bind

theorem Fails.bind (h : Fails r m e) : Fails (fun n => r n >>= f n) m e :=
  h.mono fun _ => run_bind_fault

theorem returns_of_eq {r : Run α} (h : r m = some (.ok (a, m'))) : Returns (fun _ => r) m a m' :=
  .of_forall fun _ => h

/-- A run does not end in two ways. -/
theorem Fails.not_returns (h : Fails r m e) : ¬Returns r m a m' := fun h' => by
  obtain ⟨n, hfails, hreturns⟩ := (h.and h').exists
  cases hfails.symm.trans hreturns

theorem run_get (m : Descent) : (get : Run Descent) m = some (.ok (m, m)) := rfl

theorem run_become {x : Lexemes} (h : m'.Sound x) : become x m' m = some (.ok ((), m')) := by
  unfold become
  rw [if_pos h]
  rfl

theorem eventually_of_succ {P : Nat → Prop} (h : ∀ᶠ n in atTop, P (n + 1)) :
    ∀ᶠ n in atTop, P n := by
  rwa [← Filter.map_add_atTop_eq_nat 1]

end

/-! ## The same place -/

section

variable {x : Lexemes} {m : Descent} {s : State}

namespace Mirrors

variable (h : Mirrors x m s)
include h

theorem lexeme? (n : Nat) : m.lexeme? x n = (s.lexemes.drop n).head? := by
  unfold Descent.lexeme?
  rw [h.lexemes, List.drop_drop, List.head?_drop]
  by_cases hn : m.cursor + n ≤ x.lexemes.length
  · rw [Nat.min_eq_left hn]
  · have hle := Nat.le_of_not_le hn
    rw [Nat.min_eq_right hle, List.getElem?_eq_none (Nat.le_refl _), List.getElem?_eq_none hle]

theorem sound : m.Sound x := ⟨h.cursor, by rw [h.functions]; exact Nat.succ_pos _⟩

theorem length : m.cursor + s.lexemes.length = x.lexemes.length := by
  rw [h.lexemes, List.length_drop, Nat.add_sub_cancel' h.cursor]

/-- The number of levels does not matter. -/
theorem withDepth (d : Nat) : Mirrors x { m with depth := d } s :=
  ⟨h.cursor, h.lexemes, h.stop, h.functions⟩

end Mirrors

end

/-! ## Tracking -/

section

variable {x : Lexemes} {α β : Type} {S S' S'' : Shape} {ts : List Token} {t : Token}

/-- The machine and the rule come to the same: a fault, or a result with states that mirror one
another. Then the machine has left `S` open. -/
def Agree (x : Lexemes) (S : Shape) (r : Nat → Run α) (m : Descent) (p : Parse α) (s : State) :
    Prop :=
  (∃ e, p s = .error e ∧ Fails r m e) ∨
    ∃ a m' s', p s = .ok (a, s') ∧ Returns r m a m' ∧ Mirrors x m' s' ∧ m'.shape = S

/-- In front of these tokens and with `S` open, the machine does what the rule does, and leaves `S'`
open. -/
def TracksAt (x : Lexemes) (ts : List Token) (S S' : Shape) (r : Nat → Run α) (p : Parse α) :
    Prop :=
  ∀ m s, Mirrors x m s → m.shape = S → ts <+: s.tokens → Agree x S' r m p s

/-- **The machine does what the rule does**, wherever it stands with `S` open, and leaves `S'`
open. -/
abbrev Tracks (x : Lexemes) (S S' : Shape) (r : Nat → Run α) (p : Parse α) : Prop :=
  TracksAt x [] S S' r p

variable {r : Nat → Run α} {p : Parse α} {f : Nat → α → Run β} {g : α → Parse β}

theorem TracksAt.before (h : Tracks x S S' r p) (ts : List Token) : TracksAt x ts S S' r p :=
  fun m s hm hS _ => h m s hm hS List.nil_prefix

theorem Agree.of_eq {r' : Nat → Run α} {p' : Parse α} {m m' : Descent} {s s' : State}
    (h : Agree x S r m p s) (hr : ∀ᶠ n in atTop, r' n m' = r n m) (hp : p' s' = p s) :
    Agree x S r' m' p' s' := by
  rcases h with ⟨e, herror, hfails⟩ | ⟨a, m₁, s₁, hok, hreturns, hm₁, hS⟩
  · exact .inl ⟨e, hp.trans herror, (hr.and hfails).mono fun _ h => h.1.trans h.2⟩
  · exact .inr ⟨a, m₁, s₁, hp.trans hok, (hr.and hreturns).mono fun _ h => h.1.trans h.2, hm₁, hS⟩

theorem Agree.of_succ {m : Descent} {s : State} (h : Agree x S (fun n => r (n + 1)) m p s) :
    Agree x S r m p s := by
  rcases h with ⟨e, hp, hr⟩ | ⟨a, m', s', hp, hr, hm', hS⟩
  · exact .inl ⟨e, hp, eventually_of_succ hr⟩
  · exact .inr ⟨a, m', s', hp, eventually_of_succ hr, hm', hS⟩

/-- One call or round more may be open. -/
theorem TracksAt.of_succ (h : TracksAt x ts S S' (fun n => r (n + 1)) p) :
    TracksAt x ts S S' r p := fun m s hm hS hts => (h m s hm hS hts).of_succ

/-- The state that the machine turns into mirrors that of the rule. -/
theorem agree_become {r : Run Unit} {p : Parse Unit} {m m' : Descent} {s s' : State}
    (hm' : Mirrors x m' s') (hS : m'.shape = S) (hr : r m = become x m' m)
    (hp : p s = .ok ((), s')) : Agree x S (fun _ => r) m p s :=
  .inr ⟨(), m', s', hp, returns_of_eq (hr.trans (run_become hm'.sound)), hm', hS⟩

theorem TracksAt.bind (h : TracksAt x ts S S' r p)
    (h' : ∀ a, Tracks x S' S'' (fun n => f n a) (g a)) :
    TracksAt x ts S S'' (fun n => r n >>= f n) (p >>= g) := by
  intro m s hm hS hts
  rcases h m s hm hS hts with ⟨e, hp, hr⟩ | ⟨a, m', s', hp, hr, hm', hS'⟩
  · exact .inl ⟨e, Parse.bind_eq_error.2 (.inl hp), hr.bind⟩
  · exact (h' a m' s' hm' hS' List.nil_prefix).of_eq hr.bind (Parse.run_bind hp)

/-- What the machine does before the rule begins. -/
theorem TracksAt.silent {r : Nat → Run Unit} {f : Nat → Unit → Run α}
    (h : TracksAt x ts S S' r (pure ())) (h' : Tracks x S' S'' (fun n => f n ()) p) :
    TracksAt x ts S S'' (fun n => r n >>= f n) p := by
  rw [← pure_bind () fun _ => p]
  exact h.bind fun _ => h'

/-- What the machine does after the rule has ended. -/
theorem TracksAt.after {f : Nat → α → Run α} (h : TracksAt x ts S S' r p)
    (h' : ∀ a, Tracks x S' S'' (fun n => f n a) (pure a)) :
    TracksAt x ts S S'' (fun n => r n >>= f n) p := by
  rw [← bind_pure p]
  exact h.bind h'

theorem tracks_pure (a : α) : Tracks x S S (fun _ => pure a) (pure a) :=
  fun m s hm hS _ => .inr ⟨a, m, s, rfl, returns_of_eq rfl, hm, hS⟩

theorem tracksAt_ite {c : Prop} [Decidable c] {r r' : Nat → Run α} {p p' : Parse α}
    (h : TracksAt x ts S S' r p) (h' : TracksAt x ts S S' r' p') :
    TracksAt x ts S S' (fun n => if c then r n else r' n) (if c then p else p') := by
  split
  · exact h
  · exact h'

/-- A run starts with a function open. -/
theorem tracksAt_of_open (h : S.scopes ≠ [] → TracksAt x ts S S' r p) : TracksAt x ts S S' r p := by
  intro m s hm hS
  refine h ?_ m s hm hS
  rw [← hS, shape, hm.functions]
  exact List.cons_ne_nil _ _

end

/-! ## Tokens -/

section

variable {x : Lexemes} {α β : Type} {S S' S'' : Shape} {ts : List Token} {t : Token}
  {m : Descent} {s : State}

theorem tracks_fault (f : GrammarFault) :
    Tracks x S S' (fun _ => (fault x f : Run α)) (Parse.fault f) := by
  intro m s hm _ _
  refine .inl ⟨_, rfl, .of_forall fun _ => ?_⟩
  have hplace : (m.lexeme? x 0).map Lexeme.position = s.lexemes.head?.map Lexeme.position :=
    congrArg _ (hm.lexeme? 0)
  rw [hm.stop, ← hplace]
  rfl

theorem run_peek (h : Mirrors x m s) : peek x m = some (.ok (s.tokens.head?, m)) := by
  have htoken : (m.lexeme? x 0).map Lexeme.token = s.tokens.head? := by
    rw [h.lexeme?, State.tokens, List.head?_map, List.drop_zero]
  rw [← htoken]
  rfl

theorem run_peekAhead (h : Mirrors x m s) :
    peekAhead x m = some (.ok ((s.tokens.drop 1).head?, m)) := by
  have htoken : (m.lexeme? x 1).map Lexeme.token = (s.tokens.drop 1).head? := by
    rw [h.lexeme?, State.tokens, ← List.map_drop, List.head?_map]
  rw [← htoken]
  rfl

theorem tracks_peek : Tracks x S S (fun _ => peek x) Parse.peek := fun m s hm hS _ =>
  .inr ⟨_, m, s, Parse.run_peek s, returns_of_eq (run_peek hm), hm, hS⟩

theorem tracks_faultNear (f : String → GrammarFault) :
    Tracks x S S' (fun _ => (faultNear x f : Run α)) (Parse.faultNear f) :=
  tracks_peek.bind fun _ => tracks_fault _

/-- What is done depends on the next token, and is in front of it. -/
theorem Tracks.peek {f : Nat → Option Token → Run α} {g : Option Token → Parse α}
    (hnone : Tracks x S S' (fun n => f n none) (g none))
    (hsome : ∀ t, TracksAt x [t] S S' (fun n => f n (some t)) (g (some t))) :
    Tracks x S S' (fun n => Descent.peek x >>= f n) (Parse.peek >>= g) := by
  intro m s hm hS _
  have hrun := (returns_of_eq (run_peek hm)).bind (f := f)
  have hrule := Parse.run_bind (Parse.run_peek s) (f := g)
  cases hs : s.tokens with
  | nil =>
    rw [hs] at hrun hrule
    exact (hnone m s hm hS List.nil_prefix).of_eq hrun hrule
  | cons t ts =>
    rw [hs] at hrun hrule
    exact (hsome t m s hm hS (hs ▸ ⟨ts, rfl⟩)).of_eq hrun hrule

/-- What is done depends on the next two tokens, and is in front of them. -/
theorem Tracks.peekTwo {f : Nat → Option Token → Option Token → Run α}
    {g : Option Token → Option Token → Parse α}
    (h : ∀ second first, TracksAt x (first.toList ++ second.toList) S S'
      (fun n => f n second first) (g second first)) :
    Tracks x S S' (fun n => peekAhead x >>= fun second => Descent.peek x >>= f n second)
      (Parse.peekSecond >>= fun second => Parse.peek >>= g second) := by
  intro m s hm hS _
  have hrun (n : Nat) : (peekAhead x >>= fun second => Descent.peek x >>= f n second) m =
      f n (s.tokens.drop 1).head? s.tokens.head? m := by
    rw [run_bind (run_peekAhead hm), run_bind (run_peek hm)]
  have hrule := Parse.run_bind (Parse.run_peekSecond s) (f := fun second => Parse.peek >>= g second)
  rw [Parse.run_bind (Parse.run_peek s)] at hrule
  refine (h _ _ m s hm hS ?_).of_eq (.of_forall hrun) hrule
  rcases hs : s.tokens with _ | ⟨t, _ | ⟨t', ts⟩⟩
  · exact List.nil_prefix
  · exact ⟨[], rfl⟩
  · exact ⟨ts, rfl⟩

/-- A token is taken that is known to be there. -/
theorem run_advance (h : Mirrors x m s) (hs : s.tokens ≠ []) :
    ∃ m', advance x m = some (.ok ((), m')) ∧ Mirrors x m' (s.past 1 []) ∧ m'.shape = m.shape := by
  have hpos : 0 < s.lexemes.length := List.length_pos_iff.2 (mt List.map_eq_nil_iff.2 hs)
  have hlt : m.cursor < x.lexemes.length := by
    have := h.length
    omega
  have hmirrors : Mirrors x { m with cursor := m.cursor + 1 } (s.past 1 []) :=
    ⟨hlt, by show s.lexemes.drop 1 = _; rw [h.lexemes, List.drop_drop], h.stop, h.functions⟩
  refine ⟨_, ?_, hmirrors, rfl⟩
  unfold advance
  show (if m.cursor < x.lexemes.length then _ else _ : Run Unit) m = _
  rw [if_pos hlt]
  exact run_become hmirrors.sound

theorem TracksAt.advance {f : Nat → Unit → Run α} {g : Unit → Parse α}
    (h : TracksAt x ts S S' (fun n => f n ()) (g ())) :
    TracksAt x (t :: ts) S S' (fun n => Descent.advance x >>= f n) (Parse.advance >>= g) := by
  rintro m s hm hS ⟨rest, hs⟩
  obtain ⟨m', hrun, hm', hshape⟩ := run_advance hm (hs ▸ List.cons_ne_nil _ _)
  have hrule : (Parse.advance >>= g) s = g () (s.past 1 []) := Parse.run_bind (Parse.run_advance s)
  refine (h m' _ hm' (hshape.trans hS) ⟨rest, ?_⟩).of_eq (returns_of_eq hrun).bind hrule
  rw [State.tokens_past, ← hs]
  rfl

theorem tracks_accept (t : Token) : Tracks x S S (fun _ => accept x t) (Parse.accept t) := by
  unfold accept sees Parse.accept Parse.sees
  simp only [bind_assoc, pure_bind]
  refine .peek (tracks_pure false) fun t' => ?_
  by_cases ht : some t' = some t
  · rw [beq_iff_eq.2 ht, if_pos rfl, if_pos rfl]
    exact .advance (tracks_pure true)
  · rw [beq_eq_false_iff_ne.2 ht, if_neg Bool.false_ne_true, if_neg Bool.false_ne_true]
    exact (tracks_pure false).before _

theorem tracks_expect (t : Token) : Tracks x S S (fun _ => expect x t) (Parse.expect t) := by
  unfold expect Parse.expect
  exact (tracks_accept t).bind fun found => tracksAt_ite (tracks_faultNear _) (tracks_pure ())

/-- A token that is known to be there need not be looked at. -/
theorem TracksAt.of_expect {r : Nat → Run α} {g : Unit → Parse α}
    (h : TracksAt x (t :: ts) S S' r (Parse.expect t >>= g)) :
    TracksAt x (t :: ts) S S' r (Parse.advance >>= g) := by
  intro m s hm hS hts
  obtain ⟨rest, hs⟩ := hts
  refine (h m s hm hS ⟨rest, hs⟩).of_eq (.of_forall fun _ => rfl) ?_
  rw [Parse.run_bind (Parse.run_expect hs.symm), Parse.run_bind (Parse.run_advance s)]

theorem tracks_expectName : Tracks x S S (fun _ => expectName x) Parse.expectName := by
  unfold expectName Parse.expectName
  refine .peek (tracks_faultNear _) fun t => ?_
  cases t with
  | name s => exact .advance (tracks_pure s)
  | _ => exact (tracks_faultNear _).before _

theorem tracks_separator : Tracks x S S (fun _ => separator x) Parse.separator := by
  unfold separator Parse.separator
  exact (tracks_accept _).bind fun found => tracksAt_ite (tracks_pure true) (tracks_accept _)

end

/-! ## Levels -/

section

variable {x : Lexemes} {limits : Limits} {α : Type} {S : Shape} {d : Nat} {ns : List Nat}

theorem tracks_enter (h : d < limits.maxDepth) :
    Tracks x ⟨d, ns⟩ ⟨d + 1, ns⟩ (fun _ => enter x limits) (pure ()) := by
  rintro m s hm ⟨⟩ -
  have hm' := hm.withDepth (m.depth + 1)
  refine .inr ⟨(), _, s, rfl, returns_of_eq ?_, hm', rfl⟩
  unfold enter
  rw [run_bind (run_get m), run_bind (run_become hm'.sound), if_neg (Nat.not_lt.2 h)]
  rfl

/-- No level can be opened if all are open. -/
theorem tracks_enter_full {f : Nat → Unit → Run α} (h : d = limits.maxDepth) :
    Tracks x ⟨d, ns⟩ S (fun n => enter x limits >>= f n) (Parse.fault .tooManyLevels) := by
  rintro m s hm ⟨⟩ -
  have hm' := hm.withDepth (m.depth + 1)
  have hfault : Agree x S (fun _ => (fault x .tooManyLevels : Run Unit))
      { m with depth := m.depth + 1 } (Parse.fault .tooManyLevels) s :=
    tracks_fault _ _ s hm' rfl List.nil_prefix
  have henter : enter x limits m =
      (fault x .tooManyLevels : Run Unit) { m with depth := m.depth + 1 } := by
    unfold enter
    rw [run_bind (run_get m), run_bind (run_become hm'.sound),
      if_pos (h ▸ Nat.lt_succ_self _)]
  rcases hfault with ⟨e, hp, hr⟩ | ⟨_, _, _, hp, -⟩
  · cases hp
    exact .inl ⟨_, rfl, Fails.bind (hr.mono fun _ => henter.trans)⟩
  · cases hp

theorem tracks_leave : Tracks x ⟨d + 1, ns⟩ ⟨d, ns⟩ (fun _ => leave x) (pure ()) := by
  intro m s hm hS _
  have hdepth : m.depth = d + 1 := congrArg Shape.depth hS
  refine agree_become (hm.withDepth d) (congrArg (Shape.mk d) (congrArg Shape.scopes hS)) ?_ rfl
  unfold leave
  rw [run_bind (run_get m), hdepth]

end

/-! ## Functions and scopes -/

section

variable {x : Lexemes} {limits : Limits} {α : Type} {S S' : Shape} {d n : Nat} {ns : List Nat}

/-- The innermost function is changed alike. -/
theorem tracks_onFunction {f : Frame → Frame} {g : Nat → Nat}
    (hf : ∀ frame, (f frame).scopes.length = g frame.scopes.length) :
    Tracks x ⟨d, ns⟩ ⟨d, ns.modifyHead g⟩ (fun _ => onFunction x f)
      (modify fun s => { s with frame := f s.frame }) := by
  rintro m s hm ⟨⟩ -
  have hm' : Mirrors x { m with functions := f s.frame :: s.outer } { s with frame := f s.frame } :=
    ⟨hm.cursor, hm.lexemes, hm.stop, rfl⟩
  refine agree_become hm' ?_ ?_ rfl
  · rw [shape, hm.functions, List.map_cons, List.map_cons, hf]
    rfl
  · unfold onFunction
    rw [run_bind (run_get m), hm.functions]

theorem tracks_openScope :
    Tracks x ⟨d, ns⟩ ⟨d, ns.modifyHead (· + 1)⟩ (fun _ => openScope x) Parse.openScope :=
  tracks_onFunction fun _ => List.length_cons

theorem tracks_closeScope :
    Tracks x ⟨d, ns.modifyHead (· + 1)⟩ ⟨d, ns⟩ (fun _ => closeScope x) Parse.closeScope := by
  have hclose : Tracks x ⟨d, ns.modifyHead (· + 1)⟩
      ⟨d, (ns.modifyHead (· + 1)).modifyHead (· - 1)⟩ (fun _ => closeScope x) Parse.closeScope :=
    tracks_onFunction fun _ => List.length_drop
  have hback : (ns.modifyHead (· + 1)).modifyHead (· - 1) = ns := by cases ns <;> rfl
  rwa [hback] at hclose

theorem tracks_keep {f : Frame → Frame}
    (hf : ∀ frame, (f frame).scopes.length = frame.scopes.length) :
    Tracks x S S (fun _ => onFunction x f) (modify fun s => { s with frame := f s.frame }) := by
  have hkeep : Tracks x ⟨S.depth, S.scopes⟩ ⟨S.depth, S.scopes.modifyHead id⟩ _ _ :=
    tracks_onFunction hf
  rwa [List.modifyHead_id] at hkeep

theorem tracks_declare (name : String) :
    Tracks x S S (fun _ => declare x name) (Parse.declare name) :=
  tracks_keep fun frame => by cases frame.scopes <;> rfl

theorem tracks_declareAll (names : List String) :
    Tracks x S S (fun _ => names.forM (declare x)) (names.forM Parse.declare) := by
  induction names with
  | nil => exact tracks_pure _
  | cons name names ih => exact (tracks_declare name).bind fun _ => ih

theorem tracks_openFunction :
    Tracks x ⟨d, ns⟩ ⟨d, 1 :: ns⟩ (fun _ => openFunction x) Parse.openFunction := by
  rintro m s hm ⟨⟩ -
  have hm' : Mirrors x { m with functions := {} :: m.functions }
      { s with frame := {}, outer := s.frame :: s.outer } :=
    ⟨hm.cursor, hm.lexemes, hm.stop, by rw [hm.functions]⟩
  exact agree_become hm' rfl (run_bind (run_get m)) rfl

theorem tracks_closeFunction (hns : ns ≠ []) :
    Tracks x ⟨d, n :: ns⟩ ⟨d, ns⟩ (fun _ => closeFunction x) Parse.closeFunction := by
  intro m s hm hS _
  have hscopes : m.functions.map (fun f => f.scopes.length) = n :: ns := congrArg Shape.scopes hS
  rw [hm.functions, List.map_cons, List.cons.injEq] at hscopes
  have houter : s.outer ≠ [] := fun h => hns (by rw [← hscopes.2, h, List.map_nil])
  have hm' : Mirrors x { m with functions := m.functions.tail }
      { s with frame := s.outer.headD {}, outer := s.outer.drop 1 } := by
    refine ⟨hm.cursor, hm.lexemes, hm.stop, ?_⟩
    obtain ⟨frame, outer, h⟩ := List.exists_cons_of_ne_nil houter
    rw [hm.functions, h]
    rfl
  refine agree_become hm' ?_ (run_bind (run_get m)) rfl
  rw [shape, hm.functions, List.tail_cons, hscopes.2]
  exact congrArg (Shape.mk · ns) (congrArg Shape.depth hS)

/-- A name is known in the same scopes. -/
theorem Tracks.isLocal {name : String} {f : Nat → Bool → Run α} {g : State → Parse α}
    (h : ∀ s, Tracks x S S' (fun n => f n (s.isLocal name)) (g s)) :
    Tracks x S S' (fun n => Descent.isLocal name >>= f n) (get >>= g) := by
  intro m s hm hS hts
  have hlocal : Descent.isLocal name m = some (.ok (s.isLocal name, m)) := by
    unfold Descent.isLocal State.isLocal
    rw [run_bind (run_get m), hm.functions]
    rfl
  exact (h s m s hm hS hts).of_eq (returns_of_eq hlocal).bind rfl

theorem tracks_addConstant (c : Constant) :
    Tracks x S S (fun _ => addConstant x limits c) (Parse.addConstant limits.maxConstants c) := by
  have hcount : Tracks x S S
      (fun _ => onFunction x fun f => { f with constants := f.constants.insert c })
      (modify fun s => { s with frame.constants := s.frame.constants.insert c }) :=
    tracks_keep fun _ => rfl
  unfold addConstant Parse.addConstant
  refine hcount.bind fun _ m s hm hS hts => ?_
  have hfault : Tracks x S S (fun _ => if limits.maxConstants < s.frame.constants.size then
      fault x (.tooManyConstants limits.maxConstants) else pure ()) _ :=
    tracksAt_ite (tracks_fault _) (tracks_pure ())
  refine (hfault m s hm hS hts).of_eq (.of_forall fun _ => ?_) rfl
  rw [run_bind (run_get m), hm.functions]

/-- Scopes and variables do not change where a fault is. -/
theorem openScope_fault {β : Type} (names : List String) (e : GrammarFault) (g : α → Parse β) :
    (do Parse.openScope; names.forM Parse.declare; let a ← Parse.fault e; g a) =
      Parse.fault e := by
  have hnames (s : State) : ∃ s', names.forM Parse.declare s = .ok ((), s') ∧
      s'.lexemes = s.lexemes ∧ s'.stop = s.stop := by
    induction names generalizing s with
    | nil => exact ⟨s, rfl, rfl, rfl⟩
    | cons name names ih =>
      obtain ⟨s', hrun, hlexemes, hstop⟩ := ih _
      exact ⟨s', hrun, hlexemes, hstop⟩
  funext s
  obtain ⟨s', hrun, hlexemes, hstop⟩ := hnames { s with frame.scopes := [] :: s.frame.scopes }
  have hfault : (Parse.fault e : Parse α) s' =
      .error ((s.lexemes.head?.map Lexeme.position).getD s.stop, e) := by
    unfold Parse.fault
    rw [hlexemes, hstop]
  rw [Parse.run_bind (show Parse.openScope s = _ from rfl), Parse.run_bind hrun]
  exact Parse.bind_eq_error.2 (.inl hfault)

end

/-! ## Repetition -/

section

variable {x : Lexemes} {α β : Type} {S : Shape}

/-- A loop of the machine does what a repetition does, if its rounds do what the rounds of the
repetition do and these take tokens. -/
theorem tracks_loop {again : Nat → α → Run β} {round : Nat → α → Run (α ⊕ β)}
    {f : α → Parse (α ⊕ β)} (hagain : ∀ n, again (n + 1) = loop (again n) (round n))
    (hround : ∀ a, Tracks x S S (fun n => round n a) (f a)) (hf : Parse.Progresses f) (a : α) :
    Tracks x S S (fun n => again n a) (Parse.rounds f a) := by
  intro m s hm hS hts
  induction hn : s.lexemes.length using Nat.strongRecOn generalizing a m s with
  | ind n ih =>
    refine Agree.of_succ ?_
    simp only [hagain]
    rw [Parse.rounds_eq hf]
    rcases hround a m s hm hS hts with ⟨e, hp, hr⟩ | ⟨y, m', s', hp, hr, hm', hS'⟩
    · exact .inl ⟨e, Parse.bind_eq_error.2 (.inl hp), hr.bind⟩
    · refine Agree.of_eq ?_ hr.bind (Parse.run_bind hp)
      cases y with
      | inl a' => exact ih _ (hn ▸ hf _ _ _ _ hp) a' m' s' hm' hS' List.nil_prefix rfl
      | inr b => exact tracks_pure b m' s' hm' hS' List.nil_prefix

end

end LuaGraph.Chunk.Descent
