import LuaGraph.Proofs.Chunk.Rounds

/-!
# Two runs over alike tokens

Two runs of a parser are compared whose tokens are the same up to commas before closing braces
(`Commas`).

* `Keeps P Q p` is a triple about two runs: if the first of two states that `P` relates is one in
  which `p` succeeds, then it succeeds in the other one with the same value, and `Q` relates the
  states after it.
* Between parts of the grammar two states are *loosely* alike: it may be that one of them stands
  before a comma and the other one before the closing brace (`Like.cases`).
* A look at the next token goes well if the two tokens are treated alike (`keeps_peek`); a comma may
  be accepted in one run only if neither run can go on then (`keeps_accept_comma`).
-/

namespace LuaGraph.Chunk

/-! ## Tokens -/

/-- A part of a table may end with the token. -/
def Token.endsPart : Token → Bool
  | .mark .openBrace => false
  | .mark .comma => false
  | .mark .semicolon => false
  | _ => true

/-- The token is neither a comma nor a closing brace. -/
def Token.Plain (k : Token) : Prop := k ≠ .mark .comma ∧ k ≠ .mark .closeBrace

instance (k : Token) : Decidable k.Plain := inferInstanceAs (Decidable (_ ∧ _))

/-- **The same tokens up to commas before closing braces**, where a part of a table may end. Whether
it may end before the first token is given. -/
inductive Commas : Bool → List Token → List Token → Prop
  | nil {b : Bool} : Commas b [] []
  | cons {b : Bool} {ts ts' : List Token} (t : Token) : Commas t.endsPart ts ts' →
      Commas b (t :: ts) (t :: ts')
  | left {ts ts' : List Token} : Commas true ts ts' →
      Commas true (.mark .comma :: .mark .closeBrace :: ts) (.mark .closeBrace :: ts')
  | right {ts ts' : List Token} : Commas true ts ts' →
      Commas true (.mark .closeBrace :: ts) (.mark .comma :: .mark .closeBrace :: ts')

namespace Commas

variable {b : Bool} {ts ts' : List Token}

theorem symm (h : Commas b ts ts') : Commas b ts' ts := by
  induction h with
  | nil => exact .nil
  | cons t _ ih => exact .cons t ih
  | left _ ih => exact .right ih
  | right _ ih => exact .left ih

theorem loose (h : Commas b ts ts') : Commas true ts ts' := by
  cases h with
  | nil => exact .nil
  | cons t h => exact .cons t h
  | left h => exact .left h
  | right h => exact .right h

theorem head_eq (h : Commas false ts ts') : ts'.head? = ts.head? := by
  cases h <;> rfl

end Commas

namespace Parse

/-! ## Alike states -/

/-- The states differ in commas before closing braces only. -/
structure Like (b : Bool) (s t : State) : Prop where
  tokens : Commas b s.tokens t.tokens
  frame : t.frame = s.frame
  outer : t.outer = s.outer

/-- The states stand before the same token. -/
structure Aligned (k : Option Token) (s t : State) : Prop where
  like : Like false s t
  head : s.tokens.head? = k

/-- The first state stands before a closing brace, and the second one before a comma in front of
it. -/
structure Ahead (s t : State) : Prop where
  here : s.tokens.head? = some (.mark .closeBrace)
  there : t.tokens.head? = some (.mark .comma)
  past : Like false s (t.past 1 [])

namespace Like

variable {b : Bool} {s t : State}

theorem symm (h : Like b s t) : Like b t s := ⟨h.tokens.symm, h.frame.symm, h.outer.symm⟩

theorem loose (h : Like b s t) : Like true s t := ⟨h.tokens.loose, h.frame, h.outer⟩

/-- **States that are loosely alike stand before the same token, or one of them before the comma in
front of it.** -/
theorem cases (h : Like true s t) : Like false s t ∨ Ahead s t ∨ Ahead t s := by
  obtain ⟨htokens, hframe, houter⟩ := h
  generalize hs : s.tokens = ts at htokens
  generalize ht : t.tokens = ts' at htokens
  cases htokens with
  | nil => exact .inl ⟨by rw [hs, ht]; exact .nil, hframe, houter⟩
  | cons k hk => exact .inl ⟨by rw [hs, ht]; exact .cons k hk, hframe, houter⟩
  | left h =>
    refine .inr (.inr ⟨by rw [ht]; rfl, by rw [hs]; rfl, ⟨?_, hframe.symm, houter.symm⟩⟩)
    rw [State.tokens_past, hs, ht]
    exact .cons _ h.symm
  | right h =>
    refine .inr (.inl ⟨by rw [hs]; rfl, by rw [ht]; rfl, ⟨?_, hframe, houter⟩⟩)
    rw [State.tokens_past, hs, ht]
    exact .cons _ h

theorem isLocal_eq (h : Like b s t) (name : String) : t.isLocal name = s.isLocal name := by
  unfold State.isLocal
  rw [h.frame, h.outer]

end Like

namespace Aligned

variable {k : Option Token} {s t : State}

theorem loose (h : Aligned k s t) : Like true s t := h.like.loose

/-- Both states move past their token. -/
theorem past {k : Token} (h : Aligned (some k) s t) :
    Like k.endsPart (s.past 1 []) (t.past 1 []) := by
  obtain ⟨⟨htokens, hframe, houter⟩, hhead⟩ := h
  refine ⟨?_, hframe, houter⟩
  rw [State.tokens_past, State.tokens_past]
  generalize s.tokens = ts at htokens hhead
  generalize t.tokens = ts' at htokens
  cases htokens with
  | nil => cases hhead
  | cons k' h =>
    cases hhead
    exact h

end Aligned

/-! ## Two runs -/

/-- **A triple about two runs**: what the parser does in the first state it also does in the
second one. -/
def Keeps (P Q : State → State → Prop) {α : Type} (p : Parse α) : Prop :=
  ∀ s t a s', P s t → p s = .ok (a, s') → ∃ t', p t = .ok (a, t') ∧ Q s' t'

/-- The parser fails in front of a closing brace. -/
def Stuck {α : Type} (p : Parse α) : Prop :=
  ∀ s r, s.tokens.head? = some (.mark .closeBrace) → p s ≠ .ok r

section

variable {P P' Q Q' R : State → State → Prop} {α β : Type} {p : Parse α} {f : α → Parse β}

namespace Keeps

theorem bind (h : Keeps P Q p) (h' : ∀ a, Keeps Q R (f a)) : Keeps P R (p >>= f) := by
  intro s t b s'' hst hrun
  obtain ⟨a, s', hp, hf⟩ := bind_eq_ok.1 hrun
  obtain ⟨t', hp', hst'⟩ := h s t a s' hst hp
  obtain ⟨t'', hf', hst''⟩ := h' a s' t' b s'' hst' hf
  exact ⟨t'', bind_eq_ok.2 ⟨a, t', hp', hf'⟩, hst''⟩

theorem mono (h : Keeps P Q p) (hP : ∀ s t, P' s t → P s t) (hQ : ∀ s t, Q s t → Q' s t) :
    Keeps P' Q' p := by
  intro s t a s' hst hrun
  obtain ⟨t', hp, hst'⟩ := h s t a s' (hP s t hst) hrun
  exact ⟨t', hp, hQ s' t' hst'⟩

/-- What holds of states that are loosely alike holds of those before the same token. -/
theorem aligned {k : Option Token} (h : Keeps (Like true) Q p) : Keeps (Aligned k) Q p :=
  h.mono (fun _ _ hst => hst.loose) fun _ _ hst => hst

theorem pure (a : α) : Keeps P P (Pure.pure a : Parse α) := by
  rintro s t a s' hst ⟨⟩
  exact ⟨t, rfl, hst⟩

theorem fault (e : GrammarFault) : Keeps P Q (Parse.fault e : Parse α) := by
  rintro s t a s' _ ⟨⟩

theorem faultNear (e : String → GrammarFault) : Keeps P Q (Parse.faultNear e : Parse α) := by
  rintro s t a s' _ ⟨⟩

theorem map (h : Keeps P Q p) (g : α → β) : Keeps P Q (g <$> p) := by
  rw [← bind_pure_comp]
  exact h.bind fun _ => .pure _

end Keeps

namespace Stuck

theorem bind (h : Stuck p) : Stuck (p >>= f) := by
  intro s r hs hrun
  obtain ⟨a, s', hp, -⟩ := bind_eq_ok.1 hrun
  exact h s _ hs hp

theorem expect {k : Token} (h : k ≠ .mark .closeBrace) : Stuck (Parse.expect k) := by
  intro s r hs hrun
  obtain ⟨b, s', haccept, hrest⟩ := bind_eq_ok.1 hrun
  rw [run_accept_of_ne (by simpa [hs] using h.symm)] at haccept
  cases haccept
  cases hrest

end Stuck

/-! ## Looking ahead -/

/-- A look at the token, where both states stand before the same one. -/
theorem keeps_peek_tight {f : Option Token → Parse β} {F : State → Prop}
    (h : ∀ k, Keeps (fun s t => Aligned k s t ∧ F s) Q (f k)) :
    Keeps (fun s t => Like false s t ∧ F s) Q (peek >>= f) := by
  rintro s t b s' ⟨hst, hs⟩ hrun
  rw [run_bind (run_peek s)] at hrun
  rw [run_bind (run_peek t), hst.tokens.head_eq]
  exact h _ s t b s' ⟨⟨hst, rfl⟩, hs⟩ hrun

/-- **A look at the token** by a rule that treats a comma like a closing brace. -/
theorem keeps_peek {f : Option Token → Parse β} (h : ∀ k, Keeps (Aligned k) Q (f k))
    (hsame : f (some (.mark .comma)) = f (some (.mark .closeBrace)))
    (hother : Keeps (Like true) Q (f (some (.mark .closeBrace)))) :
    Keeps (Like true) Q (peek >>= f) := by
  intro s t b s' hst hrun
  rcases hst.cases with htight | hahead | hahead
  · exact keeps_peek_tight (F := fun _ => True)
      (fun k => (h k).mono (fun _ _ hst => hst.1) fun _ _ hst => hst) s t b s' ⟨htight, trivial⟩
      hrun
  · rw [run_bind (run_peek s), hahead.here] at hrun
    rw [run_bind (run_peek t), hahead.there, hsame]
    exact hother s t b s' hst hrun
  · rw [run_bind (run_peek s), hahead.there, hsame] at hrun
    rw [run_bind (run_peek t), hahead.here]
    exact hother s t b s' hst hrun

/-- A look at the second token. -/
theorem keeps_peekSecond {f : Option Token → Parse β}
    (h : ∀ k, Keeps (fun s t => Like false s t ∧ (s.tokens.drop 1).head? = k) Q (f k))
    (hsame : f (some (.mark .comma)) = f (some (.mark .closeBrace))) :
    Keeps (Like false) Q (peekSecond >>= f) := by
  intro s t b s' hst hrun
  rw [run_bind (run_peekSecond s)] at hrun
  rw [run_bind (run_peekSecond t)]
  suffices hsecond : f (t.tokens.drop 1).head? = f (s.tokens.drop 1).head? by
    rw [hsecond]
    exact h _ s t b s' ⟨hst, rfl⟩ hrun
  have htokens := hst.tokens
  generalize s.tokens = ts at htokens
  generalize t.tokens = ts' at htokens
  cases htokens with
  | nil => rfl
  | cons k hk =>
    generalize k.endsPart = flag at hk
    cases hk with
    | nil => rfl
    | cons k hk => rfl
    | left _ => exact hsame.symm
    | right _ => exact hsame

theorem keeps_advance {k : Token} : Keeps (Aligned (some k)) (Like k.endsPart) advance := by
  rintro s t a s' hst ⟨⟩
  exact ⟨_, rfl, hst.past⟩

theorem keeps_advance_loose {k : Token} : Keeps (Aligned (some k)) (Like true) advance :=
  keeps_advance.mono (fun _ _ hst => hst) fun _ _ hst => hst.loose

/-- Both states move to a second token that is neither a comma nor a closing brace. -/
theorem keeps_advance_second {k k' : Token} (hk : k'.Plain) :
    Keeps (fun s t => Aligned (some k) s t ∧ (s.tokens.drop 1).head? = some k')
      (Aligned (some k')) advance := by
  rintro s t a s' ⟨hst, hsecond⟩ ⟨⟩
  refine ⟨_, rfl, ?_⟩
  have hhead : (s.past 1 []).tokens.head? = some k' := by rw [State.tokens_past, hsecond]
  rcases hst.past.loose.cases with htight | hahead | hahead
  · exact ⟨htight, hhead⟩
  · exact absurd (Option.some.inj (hhead.symm.trans hahead.here)) hk.2
  · exact absurd (Option.some.inj (hhead.symm.trans hahead.there)) hk.1

/-! ## Accepting and expecting -/

/-- In front of the same token both runs accept it or both do not. -/
theorem keeps_accept_tight (k : Token) : Keeps (Like false) (Like true) (accept k) := by
  intro s t b s' hst hrun
  rw [run_accept_eq] at hrun
  rw [run_accept_eq, hst.tokens.head_eq]
  split at hrun
  · rename_i hs
    rw [if_pos hs]
    cases hrun
    exact ⟨_, rfl, (Aligned.past ⟨hst, hs⟩).loose⟩
  · rename_i hs
    rw [if_neg hs]
    cases hrun
    exact ⟨_, rfl, hst.loose⟩

theorem keeps_accept {k : Token} (hk : k.Plain) : Keeps (Like true) (Like true) (accept k) := by
  intro s t b s' hst hrun
  have hcomma : some (Token.mark .comma) ≠ some k := fun h => hk.1 (Option.some.inj h).symm
  have hbrace : some (Token.mark .closeBrace) ≠ some k := fun h => hk.2 (Option.some.inj h).symm
  rcases hst.cases with htight | hahead | hahead
  · exact keeps_accept_tight k s t b s' htight hrun
  · rw [run_accept_of_ne (hahead.here ▸ hbrace)] at hrun
    rw [run_accept_of_ne (hahead.there ▸ hcomma)]
    cases hrun
    exact ⟨t, rfl, hst⟩
  · rw [run_accept_of_ne (hahead.there ▸ hcomma)] at hrun
    rw [run_accept_of_ne (hahead.here ▸ hbrace)]
    cases hrun
    exact ⟨t, rfl, hst⟩

/-- **A comma may be accepted in one run only**, if neither run can go on then. -/
theorem keeps_accept_comma {f : Bool → Parse β} (h : ∀ b, Keeps (Like true) Q (f b))
    (hstuck : ∀ b, Stuck (f b)) : Keeps (Like true) Q (accept (.mark .comma) >>= f) := by
  intro s t b s' hst hrun
  rcases hst.cases with htight | hahead | hahead
  · exact (keeps_accept_tight _).bind h s t b s' htight hrun
  · rw [run_bind (run_accept_of_ne (by simp [hahead.here]))] at hrun
    exact absurd hrun (hstuck _ _ _ hahead.here)
  · obtain ⟨ts, hts⟩ := List.head?_eq_some_iff.1 hahead.there
    rw [run_bind (run_accept hts)] at hrun
    exact absurd hrun (hstuck _ _ _ (hahead.past.tokens.head_eq.trans hahead.here))

theorem keeps_expect {k : Token} (hk : k.Plain) : Keeps (Like true) (Like true) (expect k) := by
  refine (keeps_accept hk).bind fun b => ?_
  cases b with
  | true => exact .pure _
  | false => exact .faultNear _

theorem keeps_expect_comma {f : Unit → Parse β} (h : Keeps (Like true) Q (f ()))
    (hstuck : Stuck (f ())) : Keeps (Like true) Q (expect (.mark .comma) >>= f) := by
  unfold expect
  rw [bind_assoc]
  refine keeps_accept_comma (fun b => ?_) fun b => ?_
  · cases b with
    | true => exact h
    | false => exact (Keeps.faultNear (Q := Like true) _).bind fun _ => h
  · cases b with
    | true => exact hstuck
    | false =>
      rintro s r - ⟨⟩

theorem keeps_expectName : Keeps (Like true) (Like true) expectName := by
  refine keeps_peek (fun k => ?_) rfl (.faultNear _)
  split
  · exact keeps_advance_loose.bind fun _ => .pure _
  · exact .faultNear _

/-! ## Constants and scopes -/

theorem keeps_addConstant (m : Nat) (c : Constant) :
    Keeps (Like true) (Like true) (addConstant m c) := by
  intro s t a s' hst hrun
  obtain ⟨hr, hle⟩ := addConstant_eq_ok_iff.1 hrun
  cases hr
  refine ⟨_, addConstant_eq_ok_iff.2 ⟨rfl, hst.frame ▸ hle⟩, hst.tokens, ?_, hst.outer⟩
  dsimp only
  rw [hst.frame]

/-- A look at the state, for what is alike in both states. -/
theorem keeps_get {f : State → Parse β} (hsame : ∀ s t, P s t → f t = f s)
    (h : ∀ s, Keeps P Q (f s)) : Keeps P Q (get >>= f) := by
  intro s t b s' hst hrun
  obtain ⟨t', ht', hst'⟩ := h s s t b s' hst hrun
  refine ⟨t', ?_, hst'⟩
  show f t t = _
  rw [hsame s t hst, ht']

theorem keeps_modify {g : State → State} (h : ∀ s t, Like true s t → Like true (g s) (g t)) :
    Keeps (Like true) (Like true) (modify g : Parse Unit) := by
  rintro s t a s' hst ⟨⟩
  exact ⟨_, rfl, h s t hst⟩

theorem keeps_declare (name : String) : Keeps (Like true) (Like true) (declare name) :=
  keeps_modify fun s t hst => ⟨hst.tokens, by dsimp only; rw [hst.frame], hst.outer⟩

theorem keeps_declareAll (names : List String) :
    Keeps (Like true) (Like true) (names.forM declare) := by
  induction names with
  | nil => exact .pure _
  | cons name names ih => exact (keeps_declare name).bind fun _ => ih

theorem keeps_openScope : Keeps (Like true) (Like true) openScope :=
  keeps_modify fun s t hst => ⟨hst.tokens, by dsimp only; rw [hst.frame], hst.outer⟩

theorem keeps_closeScope : Keeps (Like true) (Like true) closeScope :=
  keeps_modify fun s t hst => ⟨hst.tokens, by dsimp only; rw [hst.frame], hst.outer⟩

theorem keeps_openFunction : Keeps (Like true) (Like true) openFunction :=
  keeps_modify fun s t hst => ⟨hst.tokens, rfl, by dsimp only; rw [hst.frame, hst.outer]⟩

theorem keeps_closeFunction : Keeps (Like true) (Like true) closeFunction :=
  keeps_modify fun s t hst =>
    ⟨hst.tokens, by dsimp only; rw [hst.outer], by dsimp only; rw [hst.outer]⟩

/-! ## Rounds -/

/-- A repetition whose rounds are kept. -/
theorem keeps_rounds {f : α → Parse (α ⊕ β)} (h : ∀ a, Keeps (Like true) (Like true) (f a))
    (hf : Progresses f) (a : α) : Keeps (Like true) (Like true) (rounds f a) := by
  intro s t b s' hst hrun
  obtain ⟨n, hn⟩ := (rounds_eq_ok_iff hf).1 hrun
  suffices hrepeats : ∃ t', Repeats f n a t b t' ∧ Like true s' t' by
    obtain ⟨t', ht', hst'⟩ := hrepeats
    exact ⟨t', (rounds_eq_ok_iff hf).2 ⟨n, ht'⟩, hst'⟩
  clear hrun
  induction hn generalizing t with
  | stop hround =>
    obtain ⟨t', ht', hst'⟩ := h _ _ t _ _ hst hround
    exact ⟨t', .stop ht', hst'⟩
  | next hround _ ih =>
    obtain ⟨t', ht', hst'⟩ := h _ _ t _ _ hst hround
    obtain ⟨t'', ht'', hst''⟩ := ih t' hst'
    exact ⟨t'', .next ht' ht'', hst''⟩

end

end Parse

end LuaGraph.Chunk
