import LuaGraph.Proofs.Chunk.Ceilings

/-!
# Moving through tokens

What the rules of the grammar do to a state, apart from scopes, is to move past tokens (`advance`)
and to count constants (`add_constant`). `State.past` is this move; a rule that succeeds in front of
some tokens is described by their number and by the constants in them. There is *room* for constants
if they do not exceed the ceiling together with those counted before.
-/

namespace LuaGraph.Chunk

/-! ## States -/

namespace State

/-- The tokens left. -/
def tokens (s : State) : List Token := s.lexemes.map Lexeme.token

/-- The state after `n` tokens with some constants in them. -/
def past (s : State) (n : Nat) (cs : List Constant) : State :=
  { s with
    lexemes := s.lexemes.drop n
    frame.constants := cs.foldl (·.insert ·) s.frame.constants }

/-- The constants can be counted. -/
def Room (max : Nat) (s : State) (cs : List Constant) : Prop :=
  (s.past 0 cs).frame.constants.size ≤ max

variable {s : State} {max n k : Nat} {cs ds : List Constant} {ts rest : List Token}

@[simp] theorem past_zero (s : State) : s.past 0 [] = s := rfl

@[simp] theorem past_past (s : State) (n k : Nat) (cs ds : List Constant) :
    (s.past n cs).past k ds = s.past (n + k) (cs ++ ds) := by
  simp [past, List.drop_drop]

@[simp] theorem tokens_past (s : State) (n : Nat) (cs : List Constant) :
    (s.past n cs).tokens = s.tokens.drop n :=
  List.map_drop

theorem tokens_past_of_eq (h : s.tokens = ts ++ rest) (cs : List Constant) :
    (s.past ts.length cs).tokens = rest := by
  rw [tokens_past, h, List.drop_left]

@[simp] theorem isLocal_past (s : State) (n : Nat) (cs : List Constant) (name : String) :
    (s.past n cs).isLocal name = s.isLocal name := rfl

theorem size_foldl_insert (cs : List Constant) (set : Constants) :
    set.size ≤ (cs.foldl (·.insert ·) set).size := by
  induction cs generalizing set with
  | nil => exact Nat.le_refl _
  | cons c cs ih => exact Nat.le_trans Std.TreeSet.size_le_size_insert (ih _)

theorem room_past : (s.past n cs).Room max ds ↔ s.Room max (cs ++ ds) := by
  simp [Room, past]

theorem Room.left (h : s.Room max (cs ++ ds)) : s.Room max cs := by
  unfold Room past at *
  rw [List.foldl_append] at h
  exact Nat.le_trans (size_foldl_insert ds _) h

end State

/-! ## Steps -/

namespace Parse

variable {α β : Type} {s s' : State}

/-- The first of two parsers succeeds. -/
theorem run_bind {p : Parse α} {f : α → Parse β} {a : α} (h : p s = .ok (a, s')) :
    (p >>= f) s = f a s' := by
  show (p s >>= fun x => f x.1 x.2) = _
  rw [h]
  rfl

theorem run_map {p : Parse α} {f : α → β} {a : α} (h : p s = .ok (a, s')) :
    (f <$> p) s = .ok (f a, s') := by
  rw [← bind_pure_comp, run_bind h]
  rfl

theorem run_peek (s : State) : peek s = .ok (s.tokens.head?, s) := by
  simp [peek, State.tokens]

theorem run_peekSecond (s : State) : peekSecond s = .ok ((s.tokens.drop 1).head?, s) := by
  simp [peekSecond, State.tokens]

theorem run_advance (s : State) : advance s = .ok ((), s.past 1 []) := rfl

variable {t : Token} {ts : List Token}

theorem run_accept (h : s.tokens = t :: ts) : accept t s = .ok (true, s.past 1 []) := by
  unfold accept sees
  rw [run_bind (run_bind (run_peek s)), h]
  simp only [List.head?_cons, beq_self_eq_true, if_true]
  rw [run_bind (run_advance s)]
  rfl

theorem run_accept_of_ne (h : s.tokens.head? ≠ some t) : accept t s = .ok (false, s) := by
  unfold accept sees
  rw [run_bind (run_bind (run_peek s)), beq_eq_false_iff_ne.2 h]
  rfl

theorem run_expect (h : s.tokens = t :: ts) : expect t s = .ok ((), s.past 1 []) := by
  unfold expect
  rw [run_bind (run_accept h)]
  rfl

theorem run_accept_eq (k : Token) (s : State) : accept k s =
    if s.tokens.head? = some k then .ok (true, s.past 1 []) else .ok (false, s) := by
  split
  · rename_i hs
    obtain ⟨ts, hts⟩ := List.head?_eq_some_iff.1 hs
    exact run_accept hts
  · rename_i hs
    exact run_accept_of_ne hs

theorem run_expect_eq_ok_iff {k : Token} {r : Unit × State} :
    expect k s = .ok r ↔ s.tokens.head? = some k ∧ r = ((), s.past 1 []) := by
  unfold expect
  have haccept := run_accept_eq k s
  by_cases hs : s.tokens.head? = some k
  · rw [if_pos hs] at haccept
    rw [run_bind haccept]
    show Except.ok ((), s.past 1 []) = Except.ok r ↔ _
    rw [Except.ok.injEq, eq_comm, and_iff_right hs]
  · rw [if_neg hs] at haccept
    rw [run_bind haccept]
    simp only [hs, false_and, iff_false]
    rintro ⟨⟩

theorem run_expectName {name : String} (h : s.tokens = .name name :: ts) :
    expectName s = .ok (name, s.past 1 []) := by
  unfold expectName
  rw [run_bind (run_peek s), h]
  simp only [List.head?_cons]
  rw [run_bind (run_advance s)]
  rfl

section

variable {n : Nat} {cs : List Constant}

/-! The same steps after others. -/

theorem accept_past (h : (s.past n cs).tokens = t :: ts) :
    accept t (s.past n cs) = .ok (true, s.past (n + 1) cs) := by
  rw [run_accept h, State.past_past, List.append_nil]

theorem expect_past (h : (s.past n cs).tokens = t :: ts) :
    expect t (s.past n cs) = .ok ((), s.past (n + 1) cs) := by
  rw [run_expect h, State.past_past, List.append_nil]

theorem expectName_past {name : String} (h : (s.past n cs).tokens = .name name :: ts) :
    expectName (s.past n cs) = .ok (name, s.past (n + 1) cs) := by
  rw [run_expectName h, State.past_past, List.append_nil]

end

theorem run_addConstant {max : Nat} {c : Constant} (h : s.Room max [c]) :
    addConstant max c s = .ok ((), s.past 0 [c]) := addConstant_eq_ok_iff.2 ⟨rfl, h⟩

/-! ## Repetition -/

/-- After `n` rounds that go on, one ends the repetition. -/
inductive Repeats (f : α → Parse (α ⊕ β)) : Nat → α → State → β → State → Prop
  | stop {a b s s'} : f a s = .ok (.inr b, s') → Repeats f 0 a s b s'
  | next {n a a' b s s' s''} : f a s = .ok (.inl a', s') → Repeats f n a' s' b s'' →
      Repeats f (n + 1) a s b s''

theorem run_roundsWithin {f : α → Parse (α ⊕ β)} {n : Nat} {a : α} {b : β}
    (h : Repeats f n a s b s') {left : List Lexeme} (hn : n ≤ left.length) :
    roundsWithin f left a s = .ok (b, s') := by
  induction h generalizing left with
  | stop h => cases left <;> (unfold roundsWithin; rw [run_bind h]; rfl)
  | next h _ ih =>
    cases left with
    | nil => exact absurd hn (by simp)
    | cons l left =>
      unfold roundsWithin
      rw [run_bind h]
      exact ih (Nat.le_of_succ_le_succ hn)

/-- Some rounds that all go on. -/
inductive Chain (f : α → Parse (α ⊕ β)) : Nat → α → State → α → State → Prop
  | nil {a s} : Chain f 0 a s a s
  | next {n a a' a'' s s' s''} : f a s = .ok (.inl a', s') → Chain f n a' s' a'' s'' →
      Chain f (n + 1) a s a'' s''

theorem Chain.append {f : α → Parse (α ⊕ β)} {n k : Nat} {a a' a'' : α} {s'' : State}
    (h : Chain f n a s a' s') (h' : Chain f k a' s' a'' s'') : Chain f (n + k) a s a'' s'' := by
  induction h with
  | nil => rwa [Nat.zero_add]
  | next hf _ ih =>
    rw [Nat.add_right_comm]
    exact .next hf (ih h')

theorem Chain.repeats {f : α → Parse (α ⊕ β)} {n : Nat} {a a' : α} {b : β} {s'' : State}
    (h : Chain f n a s a' s') (h' : f a' s' = .ok (.inr b, s'')) : Repeats f n a s b s'' := by
  induction h with
  | nil => exact .stop h'
  | next hf _ ih => exact .next hf (ih h')

/-- A repetition has as many rounds as there are tokens. -/
theorem run_rounds {f : α → Parse (α ⊕ β)} {n : Nat} {a : α} {b : β}
    (h : Repeats f n a s b s') (hn : n ≤ s.tokens.length) : rounds f a s = .ok (b, s') := by
  rw [State.tokens, List.length_map] at hn
  exact run_roundsWithin h hn

end Parse

end LuaGraph.Chunk
