import LuaGraph.Proofs.Chunk.Statements

/-!
# Rounds

The rules that repeat something (`block`, `subexpr`, `suffixed_expr`, `table_constructor`) do so in
rounds, and are given as many of them as there are tokens left. That is always enough, since a round
that does not end the repetition takes a token.

* A parser *takes* a token for some of its results if fewer tokens are left after them. It is enough
  that it takes one where there is one to be taken, if it fails where there is none.
* What follows a token that was taken does not give it back (`Advances`).

Results: a repetition is a run of its rounds, whatever their number (`rounds_eq_ok_iff`), and so it
is its first round with the repetition after it (`rounds_eq`).
-/

namespace LuaGraph.Chunk.Parse

/-! ## Repetitions -/

section

variable {α β : Type} {f : α → Parse (α ⊕ β)} {a : α} {b : β} {s s' : State}

/-- A round that goes on takes a token. -/
def Progresses (f : α → Parse (α ⊕ β)) : Prop :=
  ∀ a s a' s', f a s = .ok (.inl a', s') → s'.lexemes.length < s.lexemes.length

theorem Repeats.le {n : Nat} (h : Repeats f n a s b s') (hf : Progresses f) :
    n ≤ s.lexemes.length := by
  induction h with
  | stop => exact Nat.zero_le _
  | next hround _ ih => exact Nat.lt_of_le_of_lt ih (hf _ _ _ _ hround)

theorem exists_repeats {left : List Lexeme} (h : roundsWithin f left a s = .ok (b, s')) :
    ∃ n, Repeats f n a s b s' := by
  induction left generalizing a s with
  | nil =>
    unfold roundsWithin at h
    obtain ⟨x, s₁, hround, hrest⟩ := bind_eq_ok.1 h
    cases x with
    | inl a' => cases hrest
    | inr b' =>
      cases hrest
      exact ⟨0, .stop hround⟩
  | cons l left ih =>
    unfold roundsWithin at h
    obtain ⟨x, s₁, hround, hrest⟩ := bind_eq_ok.1 h
    cases x with
    | inl a' =>
      obtain ⟨n, hn⟩ := ih hrest
      exact ⟨n + 1, .next hround hn⟩
    | inr b' =>
      cases hrest
      exact ⟨0, .stop hround⟩

/-- **A repetition is a run of its rounds**, if they make progress. -/
theorem rounds_eq_ok_iff (hf : Progresses f) :
    rounds f a s = .ok (b, s') ↔ ∃ n, Repeats f n a s b s' := by
  constructor
  · intro h
    exact exists_repeats (show roundsWithin f s.lexemes a s = .ok (b, s') from h)
  · rintro ⟨n, hn⟩
    refine run_rounds hn ?_
    rw [State.tokens, List.length_map]
    exact hn.le hf

/-- A repetition has more rounds only where a round goes on, and there a token is left for it. -/
theorem roundsWithin_congr {left left' : List Lexeme}
    (h : ∀ a' s', f a s = .ok (.inl a', s') → ∃ l ls l' ls', left = l :: ls ∧ left' = l' :: ls' ∧
      roundsWithin f ls a' s' = roundsWithin f ls' a' s') :
    roundsWithin f left a s = roundsWithin f left' a s := by
  unfold roundsWithin
  cases hround : f a s with
  | error e => rw [bind_eq_error.2 (.inl hround), bind_eq_error.2 (.inl hround)]
  | ok r =>
    obtain ⟨y, s₁⟩ := r
    rw [run_bind hround, run_bind hround]
    cases y with
    | inl a' =>
      obtain ⟨l, ls, l', ls', rfl, rfl, hrest⟩ := h a' s₁ hround
      exact hrest
    | inr b' => rfl

/-- As many rounds as there are tokens left are enough. -/
theorem roundsWithin_eq (hf : Progresses f) {left left' : List Lexeme}
    (h : s.lexemes.length ≤ left.length) (h' : s.lexemes.length ≤ left'.length) :
    roundsWithin f left a s = roundsWithin f left' a s := by
  induction left generalizing a s left' with
  | nil =>
    refine roundsWithin_congr fun a' s₁ hround => ?_
    exact absurd (Nat.lt_of_lt_of_le (hf _ _ _ _ hround) h) (Nat.not_lt_zero _)
  | cons l ls ih =>
    refine roundsWithin_congr fun a' s₁ hround => ?_
    have hlt := hf _ _ _ _ hround
    cases left' with
    | nil => exact absurd (Nat.lt_of_lt_of_le hlt h') (Nat.not_lt_zero _)
    | cons l' ls' =>
      have hls : s₁.lexemes.length ≤ ls.length := Nat.le_of_lt_succ (Nat.lt_of_lt_of_le hlt h)
      have hls' : s₁.lexemes.length ≤ ls'.length := Nat.le_of_lt_succ (Nat.lt_of_lt_of_le hlt h')
      exact ⟨l, ls, l', ls', rfl, rfl, ih hls hls'⟩

/-- **A repetition is its first round, and the repetition after it** where the round goes on. -/
theorem rounds_eq (hf : Progresses f) (a : α) : rounds f a = (do
    match ← f a with
    | .inl a => rounds f a
    | .inr b => return b) := by
  funext s
  -- one round more is allowed, so that the first one can be taken off
  have hmore : rounds f a s = roundsWithin f (⟨.mark .comma, {}⟩ :: s.lexemes) a s :=
    roundsWithin_eq hf (Nat.le_refl _) (Nat.le_succ _)
  rw [hmore]
  unfold roundsWithin
  cases hround : f a s with
  | error e => rw [bind_eq_error.2 (.inl hround), bind_eq_error.2 (.inl hround)]
  | ok r =>
    obtain ⟨y, s₁⟩ := r
    rw [run_bind hround, run_bind hround]
    cases y with
    | inl a' => exact roundsWithin_eq hf (Nat.le_of_lt (hf _ _ _ _ hround)) (Nat.le_refl _)
    | inr b' => rfl

end

/-! ## Taking tokens -/

section

variable {α β : Type} {P : α → Prop} {Q : β → Prop} {p : Parse α} {f : α → Parse β}

/-- Fewer tokens are left after the results in question. -/
def Takes (P : α → Prop) (p : Parse α) : Prop :=
  ∀ s a s', p s = .ok (a, s') → P a → s'.lexemes.length < s.lexemes.length

/-- The parser takes a token if there is one. -/
def TakesNext (P : α → Prop) (p : Parse α) : Prop :=
  ∀ s a s', s.lexemes ≠ [] → p s = .ok (a, s') → P a → s'.lexemes.length < s.lexemes.length

theorem Takes.next (h : Takes P p) : TakesNext P p := fun s a s' _ => h s a s'

theorem takes_pure {a : α} (h : ¬P a) : Takes P (pure a) := by
  rintro s a s' ⟨⟩ ha
  exact absurd ha h

theorem takes_fault (e : GrammarFault) : Takes P (fault e) := by
  rintro s a s' ⟨⟩

theorem takes_faultNear (e : String → GrammarFault) : Takes P (faultNear e) := by
  rintro s a s' ⟨⟩

/-- Something is taken after a step. -/
theorem Advances.takes (hp : Advances p) (hf : ∀ a, Takes Q (f a)) : Takes Q (p >>= f) := by
  intro s b s'' hrun hb
  obtain ⟨a, s', hfirst, hrest⟩ := bind_eq_ok.1 hrun
  exact Nat.lt_of_lt_of_le (hf a s' b s'' hrest hb) (hp.suffix hfirst).length_le

/-- Something is taken first. -/
theorem Takes.bind (hp : Takes P p) (hf : ∀ a, P a → Advances (f a))
    (hf' : ∀ a, ¬P a → Takes Q (f a)) (hadvances : Advances p) : Takes Q (p >>= f) := by
  intro s b s'' hrun hb
  obtain ⟨a, s', hfirst, hrest⟩ := bind_eq_ok.1 hrun
  by_cases ha : P a
  · exact Nat.lt_of_le_of_lt ((hf a ha).suffix hrest).length_le (hp s a s' hfirst ha)
  · exact Nat.lt_of_lt_of_le (hf' a ha s' b s'' hrest hb) (hadvances.suffix hfirst).length_le

/-- Something is always taken first. -/
theorem Takes.before (hp : Takes (fun _ => True) p) (hf : ∀ a, Advances (f a)) :
    Takes Q (p >>= f) := by
  intro s b s'' hrun _
  obtain ⟨a, s', hfirst, hrest⟩ := bind_eq_ok.1 hrun
  exact Nat.lt_of_le_of_lt ((hf a).suffix hrest).length_le (hp s a s' hfirst trivial)

theorem takesNext_advance {f : Unit → Parse β} (hf : Advances (f ())) :
    TakesNext Q (advance >>= f) := by
  intro s b s' hs hrun _
  rw [run_bind (run_advance s)] at hrun
  have hle := (hf.suffix hrun).length_le
  have hpos := List.length_pos_iff.2 hs
  simp only [State.past, List.length_drop] at hle
  omega

theorem takes_peek {f : Option Token → Parse β} (hnone : Takes Q (f none))
    (hsome : ∀ t, TakesNext Q (f (some t))) : Takes Q (peek >>= f) := by
  intro s b s' hrun hb
  rw [run_bind (run_peek s)] at hrun
  cases hs : s.lexemes with
  | nil =>
    rw [State.tokens, hs] at hrun
    exact hs ▸ hnone s b s' hrun hb
  | cons l ls =>
    rw [State.tokens, hs] at hrun
    exact hs ▸ hsome l.token s b s' (by simp [hs]) hrun hb

theorem takes_accept (t : Token) : Takes (· = true) (accept t) := by
  intro s b s' hrun hb
  by_cases hs : s.tokens.head? = some t
  · obtain ⟨ts, hts⟩ := List.head?_eq_some_iff.1 hs
    rw [run_accept hts] at hrun
    cases hrun
    have hlength := congrArg List.length hts
    rw [State.tokens, List.length_map, List.length_cons] at hlength
    simp only [State.past, List.length_drop]
    omega
  · rw [run_accept_of_ne hs] at hrun
    cases hrun
    cases hb

theorem takes_expect (t : Token) : Takes (fun _ => True) (expect t) := by
  intro s a s' hrun _
  obtain ⟨hhead, hpast⟩ := run_expect_eq_ok_iff.1 hrun
  cases hpast
  have hne : s.lexemes ≠ [] := fun h => by simp [State.tokens, h] at hhead
  have hpos := List.length_pos_iff.2 hne
  simp only [State.past, List.length_drop]
  omega

theorem takes_separator : Takes (· = true) separator := by
  refine (takes_accept _).bind (fun b hb => ?_) (fun b hb => ?_) (.accept _)
  · rw [hb]
    exact .pure _
  · rw [if_neg hb]
    exact takes_accept _

end

/-! ## Rounds of the grammar -/

/-- The results of a round that goes on. -/
def GoesOn {α β : Type} (x : α ⊕ β) : Prop := x.isLeft = true

theorem progresses_of_takes {α β : Type} {f : α → Parse (α ⊕ β)} (h : ∀ a, Takes GoesOn (f a)) :
    Progresses f := fun a s _ s' hrun => h a s _ s' hrun rfl

section

variable {m : Nat} {i : Inner} {Q : Option Stat → Prop} (h : (advancing m).Deeper fun _ => i)
include h

/-- A round of the rule for arguments. -/
def argumentsRound (i : Inner) (args : List Expr) : Parse (List Expr ⊕ List Expr) := do
  if ← accept (.mark .comma) then return .inl ((← i.expr) :: args)
  expect (.mark .closeParen)
  return .inr args.reverse

theorem progresses_argumentsRound : Progresses (argumentsRound i) := by
  refine progresses_of_takes fun args => (takes_accept _).bind (fun b hb => ?_) (fun b hb => ?_)
    (.accept _)
  · rw [if_pos hb]
    exact Advances.bind h.expr fun _ => .pure _
  · rw [if_neg hb]
    exact (Advances.expect _).takes fun _ => takes_pure (by simp [GoesOn])

theorem progresses_suffix : Progresses (suffix m i) := by
  refine progresses_of_takes fun e => takes_peek (takes_pure (by simp [GoesOn])) fun t => ?_
  split
  · exact takesNext_advance (Advances.expectName.bind fun _ =>
      (Advances.addConstant _ _).bind fun _ => .pure _)
  · exact takesNext_advance (Advances.bind h.expr fun _ =>
      (Advances.expect _).bind fun _ => .pure _)
  · exact takesNext_advance (Advances.bind (Law.arguments h) fun _ => .pure _)
  · exact (takes_pure (by simp [GoesOn])).next

theorem progresses_constructorRound : Progresses (constructorRound m i) := by
  refine progresses_of_takes fun parts => (Advances.accept _).takes fun closed => ?_
  split
  · exact takes_pure (by simp [GoesOn])
  · refine Advances.takes (Law.part h) fun p => takes_separator.bind (fun b hb => ?_)
      (fun b hb => ?_) .separator
    · rw [if_pos hb]
      exact .pure _
    · rw [if_neg hb]
      exact (Advances.expect _).takes fun _ => takes_pure (by simp [GoesOn])

theorem progresses_operation (floor : Nat) : Progresses (operation i floor) := by
  refine progresses_of_takes fun e => takes_peek (takes_pure (by simp [GoesOn])) fun t => ?_
  split
  · split
    · exact (takes_pure (by simp [GoesOn])).next
    · exact takesNext_advance (Advances.bind (h.operation _) fun _ => .pure _)
  · exact (takes_pure (by simp [GoesOn])).next

theorem takes_primary : Takes (fun _ => True) (primary m i) := by
  refine takes_peek (takes_faultNear _) fun t => ?_
  split
  · refine takesNext_advance (Advances.get.bind fun s => ?_)
    split
    · exact (Advances.addConstant _ _).bind fun _ => .pure _
    · exact .pure _
  · exact takesNext_advance (Advances.bind h.expr fun _ =>
      (Advances.expect _).bind fun _ => .pure _)
  · exact (takes_faultNear _).next

theorem takes_suffixed : Takes (fun _ => True) (suffixed m i) :=
  (takes_primary h).before fun e => (advancing m).rounds (Law.suffix h) e

theorem takes_assignment : Takes Q (some <$> assignment m i) := by
  rw [← bind_pure_comp]
  refine Takes.before ?_ fun _ => .pure _
  refine (takes_suffixed h).before fun target => (Advances.accept _).bind fun equals => ?_
  have hassign : Advances (do return Stat.assign target (← i.expr)) :=
    Advances.bind h.expr fun _ => .pure _
  split
  · split
    · exact (Advances.fault _).bind fun _ => hassign
    · exact hassign
  · split
    · exact .pure _
    · exact .faultNear _

theorem takes_statement : Takes (fun _ => True) (statement m i) := by
  refine takes_peek (takes_assignment h) fun t => ?_
  split
  · exact takesNext_advance (.pure _)
  · exact takesNext_advance ((advancing m).map (Law.declaration h) some)
  · exact takesNext_advance ((advancing m).map (Law.loop h) some)
  · exact takesNext_advance (Advances.bind (Law.scopedBlock h []) fun _ => .pure _)
  · exact (takes_faultNear _).next
  · exact (takes_assignment h).next

theorem progresses_statementsRound : Progresses (statementsRound m i) := by
  refine progresses_of_takes fun done => takes_peek (takes_pure (by simp [GoesOn])) fun t => ?_
  split
  · rename_i heq
    cases heq
  · exact (takes_pure (by simp [GoesOn])).next
  · exact ((takes_statement h).before fun _ => .pure _).next

end

end LuaGraph.Chunk.Parse
