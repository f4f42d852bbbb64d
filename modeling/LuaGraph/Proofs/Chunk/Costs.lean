import LuaGraph.Chunk.Run
import LuaGraph.Proofs.Chunk.Ceilings

/-!
# What a text costs

A run of the parser is described without ceilings: `Spends p s a s' c` says that the parser `p`,
which is given ceilings, goes from the state `s` to the value `a` and the state `s'`, and that the
greatest number of constants that it has counted in one function (`add_constant`) and the levels
that it has opened (`enter`) are those of the cost `c`.

* The cost is read off the run: a step costs nothing, a constant costs as many as its function has
  after it was counted, and one level more is opened for an expression or a block.
* The cost is exact: the parser takes the run under all ceilings that allow the cost, and under no
  others (`Spends.run_iff`). So it depends on the parser and the state only.
* Every run has a cost (`exists_spends_chunk`), since having one is a law.

Headline: **`exists_cost`**, for every text.
-/

namespace LuaGraph.Chunk

/-! ## Costs -/

/-- The greatest number of distinct constants in one function, and the number of levels. -/
structure Cost where
  constants : Nat := 0
  levels : Nat := 0

namespace Cost

/-- The cost of two runs, one after the other. -/
def max (c c' : Cost) : Cost := ⟨Nat.max c.constants c'.constants, Nat.max c.levels c'.levels⟩

/-- The cost of a run one level deeper. -/
def deeper (c : Cost) : Cost := ⟨c.constants, c.levels + 1⟩

/-- The ceilings allow the cost. -/
def Within (c : Cost) (l : Limits) : Prop := c.constants ≤ l.maxConstants ∧ c.levels ≤ l.maxDepth

variable {c c' : Cost} {l : Limits}

theorem within_zero (l : Limits) : Within {} l := ⟨Nat.zero_le _, Nat.zero_le _⟩

theorem within_max : (c.max c').Within l ↔ c.Within l ∧ c'.Within l := by
  simp only [Within, max, Nat.max_le]
  exact and_and_and_comm

theorem within_deeper {m depth : Nat} :
    c.deeper.Within ⟨m, depth + 1⟩ ↔ c.Within ⟨m, depth⟩ := by
  simp only [Within, deeper, Nat.add_le_add_iff_right]

theorem not_within_deeper {m : Nat} : ¬c.deeper.Within ⟨m, 0⟩ := fun h => by
  have := h.2
  simp only [deeper] at this
  omega

end Cost

namespace Parse

/-! ## Runs and their costs -/

/-- **A run of a parser that is given ceilings, and its cost.** -/
inductive Spends : {α : Type} → (Limits → Parse α) → State → α → State → Cost → Prop
  /-- What knows nothing of the ceilings costs nothing. -/
  | step {α : Type} {p : Parse α} {s s' : State} {a : α} : p s = .ok (a, s') →
      Spends (fun _ => p) s a s' {}
  /-- A constant costs as many as its function has then. -/
  | count (c : Constant) (s : State) :
      Spends (fun l => addConstant l.maxConstants c) s ()
        { s with frame.constants := s.frame.constants.insert c }
        { constants := (s.frame.constants.insert c).size }
  /-- One parser after the other. -/
  | bind {α β : Type} {p : Limits → Parse α} {f : α → Limits → Parse β} {s s' s'' : State} {a : α}
      {b : β} {c c' : Cost} : Spends p s a s' c → Spends (f a) s' b s'' c' →
      Spends (fun l => p l >>= fun a => f a l) s b s'' (c.max c')
  /-- An expression opens a level. -/
  | operation {floor : Nat} {s s' : State} {e : Expr} {c : Cost} :
      Spends (fun l => operations l.maxConstants (inner l.maxConstants l.maxDepth) floor) s e s' c →
      Spends (fun l => (inner l.maxConstants l.maxDepth).operation floor) s e s' c.deeper
  /-- A block opens a level. -/
  | block {s s' : State} {body : List Stat} {c : Cost} :
      Spends (fun l => statements l.maxConstants (inner l.maxConstants l.maxDepth)) s body s' c →
      Spends (fun l => (inner l.maxConstants l.maxDepth).block) s body s' c.deeper

/-- **The cost is exact**: the run is taken under the ceilings that allow it, and no other run
is. -/
theorem Spends.run_iff {α : Type} {p : Limits → Parse α} {s s' : State} {a : α} {c : Cost}
    (h : Spends p s a s' c) (l : Limits) {r : α × State} :
    p l s = .ok r ↔ r = (a, s') ∧ c.Within l := by
  induction h generalizing l with
  | step hp =>
    dsimp only
    rw [hp, Except.ok.injEq, eq_comm, and_iff_left (Cost.within_zero l)]
  | count c s =>
    rw [addConstant_eq_ok_iff]
    simp [Cost.Within]
  | bind _ _ ih ih' =>
    rw [bind_eq_ok, Cost.within_max]
    constructor
    · rintro ⟨a, s', hp, hf⟩
      obtain ⟨⟨⟩, hc⟩ := (ih l).1 hp
      obtain ⟨hr, hc'⟩ := (ih' l).1 hf
      exact ⟨hr, hc, hc'⟩
    · rintro ⟨hr, hc, hc'⟩
      exact ⟨_, _, (ih l).2 ⟨rfl, hc⟩, (ih' l).2 ⟨hr, hc'⟩⟩
  | operation _ ih =>
    obtain ⟨m, depth⟩ := l
    cases depth with
    | zero =>
      simp only [inner, operationAt, Cost.not_within_deeper, and_false, iff_false]
      rintro ⟨⟩
    | succ depth =>
      simp only [inner, operationAt, Cost.within_deeper]
      exact ih ⟨m, depth⟩
  | block _ ih =>
    obtain ⟨m, depth⟩ := l
    cases depth with
    | zero =>
      simp only [inner, blockAt, Cost.not_within_deeper, and_false, iff_false]
      rintro ⟨⟩
    | succ depth =>
      simp only [inner, blockAt, Cost.within_deeper]
      exact ih ⟨m, depth⟩

/-! ## Every run has a cost -/

/-- That the runs with a given number of levels left have a cost is a law. -/
def metered (depth : Nat) : Law Limits Limits.maxConstants where
  Holds p := ∀ l : Limits, l.maxDepth = depth → ∀ s a s', p l s = .ok (a, s') →
    ∃ c, Spends p s a s' c
  step _ := fun _ _ _ _ _ hrun => ⟨_, .step hrun⟩
  bind h h' := by
    intro l hl s b s'' hrun
    obtain ⟨a, s', hp, hf⟩ := bind_eq_ok.1 hrun
    obtain ⟨c, hc⟩ := h l hl s a s' hp
    obtain ⟨c', hc'⟩ := h' a l hl s' b s'' hf
    exact ⟨_, hc.bind hc'⟩
  count c := by
    intro l _ s a s' hrun
    obtain ⟨hr, -⟩ := addConstant_eq_ok_iff.1 hrun
    cases hr
    exact ⟨_, .count c s⟩

theorem deeper_metered (depth : Nat) :
    (metered depth).Deeper fun l => inner l.maxConstants l.maxDepth := by
  induction depth with
  | zero =>
    constructor
    · rintro floor ⟨m, depth⟩ rfl s e s' hrun
      exact absurd hrun operation_zero_ne_ok
    · rintro ⟨m, depth⟩ rfl s body s' hrun
      exact absurd hrun block_zero_ne_ok
  | succ depth ih =>
    constructor
    · rintro floor ⟨m, depth⟩ rfl s e s' hrun
      simp only [inner, operationAt] at hrun
      obtain ⟨c, hc⟩ := Law.operations ih floor ⟨m, _⟩ rfl s e s' hrun
      exact ⟨_, hc.operation⟩
    · rintro ⟨m, depth⟩ rfl s body s' hrun
      simp only [inner, blockAt] at hrun
      obtain ⟨c, hc⟩ := Law.statements ih ⟨m, _⟩ rfl s body s' hrun
      exact ⟨_, hc.block⟩

theorem exists_spends_chunk {l : Limits} {s s' : State} {body : List Stat}
    (h : chunk l s = .ok (body, s')) : ∃ c, Spends chunk s body s' c :=
  Law.chunk (deeper_metered l.maxDepth) l rfl s body s' h

end Parse

/-! ## Texts -/

/-- The cost of the run of the parser over a text. -/
def Costs (text : String) (c : Cost) : Prop :=
  ∃ x body s, lex text = .ok x ∧
    Parse.Spends Parse.chunk { lexemes := x.lexemes, stop := x.stop } body s c

theorem check_eq_ok_iff {l : Limits} {text : String} :
    check l text = .ok () ↔ ∃ body, parse l text = .ok body := by
  unfold check
  cases parse l text <;> simp

/-- A check fails where parsing does. -/
theorem check_eq_error_iff {limits : Limits} {text : String} {e : Error} :
    check limits text = .error e ↔ ∃ e', parse limits text = .error e' ∧ e = located e' := by
  unfold check
  cases parse limits text <;> simp [eq_comm]

theorem Costs.parse_eq_ok_iff {text : String} {c : Cost} (h : Costs text c) :
    ∃ body, ∀ l body', parse l text = .ok body' ↔ body' = body ∧ c.Within l := by
  obtain ⟨x, body, s, hlex, hspends⟩ := h
  refine ⟨body, fun l body' => ?_⟩
  rw [Chunk.parse_eq_ok_iff]
  constructor
  · rintro ⟨x', s', hlex', hrun⟩
    cases hlex.symm.trans hlex'
    obtain ⟨⟨⟩, hc⟩ := (hspends.run_iff l).1 hrun
    exact ⟨rfl, hc⟩
  · rintro ⟨rfl, hc⟩
    exact ⟨x, s, hlex, (hspends.run_iff l).2 ⟨rfl, hc⟩⟩

/-- **The ceilings are thresholds.** Every text has a cost, which is that of its run if it is
accepted under any ceilings: it is accepted under the ceilings that allow it and no others, also
under higher ones, and whatever loads is the same under all ceilings that accept the text. -/
theorem exists_cost (text : String) : ∃ c : Cost,
    ((∃ l, check l text = .ok ()) → Costs text c) ∧
    (∀ l, check l text = .ok () ↔ (∃ l', check l' text = .ok ()) ∧ c.Within l) ∧
    (∀ l l' : Limits, l.maxConstants ≤ l'.maxConstants → l.maxDepth ≤ l'.maxDepth →
      check l text = .ok () → check l' text = .ok ()) ∧
    ∀ l l' H, check l text = .ok () → check l' text = .ok () → load l text H = load l' text H := by
  by_cases haccepted : ∃ l, check l text = .ok ()
  · obtain ⟨l₀, h₀⟩ := haccepted
    obtain ⟨body₀, hparse₀⟩ := check_eq_ok_iff.1 h₀
    obtain ⟨x, s, hlex, hrun⟩ := Chunk.parse_eq_ok_iff.1 hparse₀
    obtain ⟨c, hspends⟩ := Parse.exists_spends_chunk hrun
    have hcosts : Costs text c := ⟨x, body₀, s, hlex, hspends⟩
    obtain ⟨body, hparse⟩ := hcosts.parse_eq_ok_iff
    have hcheck (l : Limits) : check l text = .ok () ↔ c.Within l := by
      rw [check_eq_ok_iff]
      constructor
      · rintro ⟨body', h⟩
        exact ((hparse l body').1 h).2
      · exact fun h => ⟨body, (hparse l body).2 ⟨rfl, h⟩⟩
    refine ⟨c, fun _ => hcosts, fun l => ?_, fun l l' hm hd h => ?_, fun l l' H h h' => ?_⟩
    · rw [hcheck, and_iff_right ⟨l₀, h₀⟩]
    · rw [hcheck] at h ⊢
      exact ⟨Nat.le_trans h.1 hm, Nat.le_trans h.2 hd⟩
    · rw [hcheck] at h h'
      rw [load, load, (hparse l body).2 ⟨rfl, h⟩, (hparse l' body).2 ⟨rfl, h'⟩]
  · have hnever (l : Limits) : ¬check l text = .ok () := fun h => haccepted ⟨l, h⟩
    exact ⟨{}, fun h => absurd h haccepted,
      fun l => ⟨fun h => absurd h (hnever l), fun h => absurd h.1 haccepted⟩,
      fun l _ _ _ h => absurd h (hnever l), fun l _ _ h => absurd h (hnever l)⟩

example : let text := "x = \x7by = 1\x7d"
    (check ⟨3, 2⟩ text).isOk = true ∧ (check ⟨2, 9⟩ text).isOk = false ∧
      (check ⟨9, 1⟩ text).isOk = false := by decide +kernel

end LuaGraph.Chunk
