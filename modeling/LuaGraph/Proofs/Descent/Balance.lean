import LuaGraph.Proofs.Chunk.Positions
import LuaGraph.Proofs.Descent.Tracking

/-!
# Progress and balance

The machine ends on every text, with the statements that the text is parsed to or with its fault. It
never breaks: the cursor stays in the text, no token is taken at its end, no level is closed that is
not open, and there is always a function. Wherever it may stand, a rule that succeeds takes a token
at least, and leaves as many levels, functions and scopes open as there were.

That a rule takes a token is a matter of the grammar; that what it opens is closed has been seen
when it was tracked.

Headline: **`parsing_ends_balanced`**.
-/

open Filter (atTop)

namespace LuaGraph.Chunk

/-! ## Taking tokens -/

namespace Parse

section

variable {m floor : Nat} {i : Inner} (h : (advancing m).Deeper fun _ => i)
include h

theorem takes_operand : Takes (fun _ => True) (operand m i) := by
  have hsuffixed := takes_suffixed h
  have hcount (c : Constant) (e : Expr) : Advances (do addConstant m c; return e) :=
    (Advances.addConstant m c).bind fun _ => .pure _
  unfold operand
  refine takes_peek hsuffixed fun t => ?_
  cases t with
  | name s => exact hsuffixed.next
  | integer n => exact takesNext_advance (hcount _ _)
  | float x => exact takesNext_advance (hcount _ _)
  | string s => exact takesNext_advance (hcount _ _)
  | keyword word =>
    dsimp only
    split
    · exact takesNext_advance (.pure _)
    split
    · exact takesNext_advance (.pure _)
    split
    · exact takesNext_advance (.pure _)
    split
    · exact takesNext_advance (Law.function h)
    · exact hsuffixed.next
  | mark k =>
    cases k with
    | openBrace => exact takesNext_advance (Law.constructor h)
    | _ => exact hsuffixed.next

theorem takes_operations : Takes (fun _ => True) (operations m i floor) := by
  have hrounds (first : Expr) : Advances (rounds (operation i floor) first) :=
    (advancing m).rounds (Law.operation h floor) first
  unfold operations
  refine (takes_accept _).bind (fun b hb => ?_) (fun b hb => ?_) (.accept _)
  · rw [if_pos hb]
    exact Advances.bind ((advancing m).map (h.operation _) _) hrounds
  · rw [if_neg hb]
    exact (takes_operand h).before hrounds

theorem takes_function : Takes (fun _ => True) (function i) := by
  have hbody : Advances (do
      openFunction
      let body ← i.block
      closeFunction
      expect (.keyword "end")
      return Expr.function body) :=
    Advances.openFunction.bind fun _ => Advances.bind h.block fun _ =>
      Advances.closeFunction.bind fun _ => (Advances.expect _).bind fun _ => .pure _
  unfold function
  refine (takes_expect _).before fun _ => (Advances.accept _).bind fun closed => ?_
  split
  · exact (Advances.faultNear _).bind fun _ => hbody
  · exact hbody

theorem takes_constructor :
    Takes (fun _ => True) (expect (.mark .openBrace) >>= fun _ => constructor m i) :=
  (takes_expect _).before fun _ => Law.constructor h

end

theorem takes_operationAt {m levels floor : Nat} :
    Takes (fun _ => True) ((inner m levels).operation floor) := by
  cases levels with
  | zero => exact takes_fault _
  | succ levels => exact takes_operations (deeper_advancing m levels)

end Parse

/-! ## Cutting texts -/

/-- **Cutting a text into pieces ends**, since every piece takes a character, and gives its
tokens. -/
theorem tokenizeFrom_eq (text : List Char) {n cursor : Nat} (p : Position) (done : Array Lexeme)
    (h : (text.drop cursor).length < n) :
    tokenizeFrom text n cursor p done = some (lexFrom p done (text.drop cursor)) := by
  induction n generalizing cursor p done with
  | zero => exact absurd h (Nat.not_lt_zero _)
  | succ n ih =>
    rw [tokenizeFrom]
    cases hrest : text.drop cursor with
    | nil => rw [lexFrom]
    | cons c cs =>
      rw [lexFrom]
      cases hpiece : scanPiece c cs with
      | error e => simp only [hpiece]
      | ok r =>
        obtain ⟨token?, k⟩ := r
        have hdrop : text.drop (cursor + k) = cs.drop (k - 1) := by
          rw [← List.drop_drop, hrest, drop_of_scanPiece hpiece]
        have hlt : (text.drop (cursor + k)).length < n := by
          rw [hrest, List.length_cons] at h
          rw [hdrop, List.length_drop]
          omega
        simp only [hpiece]
        rw [← hdrop]
        exact ih _ _ hlt

theorem eventually_tokenizeFrom_eq (text : String) :
    ∀ᶠ n in atTop, tokenizeFrom text.toList n 0 {} #[] = some (lex text) :=
  (Filter.eventually_gt_atTop text.toList.length).mono fun _ hn => tokenizeFrom_eq _ _ _ hn

namespace Descent

/-- The state may be one of a run: the cursor is in the text, a function is open, and no more levels
are open than there may be. -/
def Valid (x : Lexemes) (limits : Limits) (m : Descent) : Prop :=
  m.Sound x ∧ m.depth ≤ limits.maxDepth

/-- **The run ends, and if it succeeds it has made progress and is balanced**: it has taken a token
at least and has not gone past the end of the text, and as many levels are open as before, as many
functions, and as many scopes of each function. -/
def Balanced {α : Type} (x : Lexemes) (r : Nat → Run α) (m : Descent) : Prop :=
  (∃ e, Fails r m e) ∨ ∃ a m', Returns r m a m' ∧
    m.cursor < m'.cursor ∧ m'.cursor ≤ x.lexemes.length ∧ m'.shape = m.shape

variable {x : Lexemes} {limits : Limits} {m : Descent} {α : Type} {r : Nat → Run α}
  {p : Parse α}

/-- What tracks a rule that takes a token makes progress and is balanced. -/
theorem balanced_of_tracks (hm : m.Sound x) (h : Tracks x m.shape m.shape r p)
    (hp : Parse.Takes (fun _ => True) p) : Balanced x r m := by
  obtain ⟨frame, outer, hfunctions⟩ := List.exists_cons_of_length_pos hm.2
  have hmirrors : Mirrors x m ⟨x.lexemes.drop m.cursor, x.stop, frame, outer⟩ :=
    ⟨hm.1, rfl, rfl, hfunctions⟩
  rcases h m _ hmirrors rfl List.nil_prefix with ⟨e, -, hr⟩ | ⟨a, m', s', hrule, hr, hm', hshape⟩
  · exact .inl ⟨e, hr⟩
  · have htaken := hp _ a s' hrule trivial
    have hlength := hmirrors.length
    have hlength' := hm'.length
    exact .inr ⟨a, m', hr, by omega, hm'.cursor, hshape⟩

/-- What the machine makes of a text is what it makes of its tokens. -/
theorem descend_of_chunk {text : String} {n : Nat} {r : Except Stop (List Stat × Descent)}
    (htokens : tokenizeFrom text.toList n 0 {} #[] = some (.ok x))
    (hrun : chunk x (calls x limits n) {} = some r) :
    descend limits text n = some (r.map Prod.fst) := by
  unfold descend
  rw [htokens]
  dsimp only
  rw [show (chunk x (calls x limits n) {}).run = some r from hrun]

/-- **What the machine makes of a text is what it is parsed to.** -/
theorem descend_eq (limits : Limits) (text : String) :
    ∀ᶠ n in atTop, descend limits text n = some ((parse limits text).mapError .fault) := by
  have htokens := eventually_tokenizeFrom_eq text
  cases hlex : lex text with
  | error e =>
    rw [parse_eq_error_iff.2 (.inl hlex)]
    refine htokens.mono fun n hn => ?_
    unfold descend
    rw [hn, hlex]
    rfl
  | ok x =>
    rw [hlex] at htokens
    have hstart : Mirrors x {} { lexemes := x.lexemes, stop := x.stop } :=
      ⟨Nat.zero_le _, rfl, rfl, rfl⟩
    have hchunk : Agree x ⟨0, [1]⟩ (fun n => chunk x (calls x limits n)) {} _ _ :=
      tracks_chunk {} _ hstart rfl List.nil_prefix
    rcases hchunk with ⟨e, hp, hr⟩ | ⟨body, m', s', hp, hr, -⟩
    · rw [parse_eq_error_iff.2 (.inr ⟨x, hlex, hp⟩)]
      exact (htokens.and hr).mono fun n hn => descend_of_chunk hn.1 hn.2
    · rw [parse_eq_ok_iff.2 ⟨x, s', hlex, hp⟩]
      exact (htokens.and hr).mono fun n hn => descend_of_chunk hn.1 hn.2

/-- **Parsing ends, makes progress and stays balanced.** Every text is cut into tokens or rejected,
and parsed to statements or rejected as a chunk that is not well formed; the machine breaks on none.
Every call of a rule in a valid state makes progress and is balanced. -/
theorem parsing_ends_balanced (limits : Limits) (text : String) :
    (∀ᶠ n in atTop, tokenizeFrom text.toList n 0 {} #[] = some (lex text)) ∧
    ((∃ body, (∀ᶠ n in atTop, descend limits text n = some (.ok body)) ∧
        parse limits text = .ok body) ∨
      ∃ e, (∀ᶠ n in atTop, descend limits text n = some (.error (.fault e))) ∧
        parse limits text = .error e ∧
        Chunk.check limits text = .error (.grammar e.1.line e.1.column e.2)) ∧
    ∀ (x : Lexemes) (m : Descent), m.Valid x limits →
      Balanced x (fun n => statement x limits (calls x limits n)) m ∧
      (∀ floor, Balanced x (fun n => (calls x limits n).subexpr floor) m) ∧
      Balanced x (fun n => suffixedExpr x limits (calls x limits n)) m ∧
      Balanced x (fun n => tableConstructor x (calls x limits n)) m ∧
      Balanced x (fun n => functionBody x limits (calls x limits n)) m := by
  refine ⟨eventually_tokenizeFrom_eq text, ?_, fun x m hm => ?_⟩
  · have hdescend := descend_eq limits text
    cases hparse : parse limits text with
    | ok body =>
      rw [hparse] at hdescend
      exact .inl ⟨body, hdescend, rfl⟩
    | error e =>
      rw [hparse] at hdescend
      exact .inr ⟨e, hdescend, rfl, check_eq_error_iff.2 ⟨e, hparse, rfl⟩⟩
  · obtain ⟨hsound, hdepth⟩ := hm
    have h : Deeper x limits m.depth _ := deeper (Nat.add_sub_cancel' hdepth)
    have hadvancing := h.advancing
    exact ⟨balanced_of_tracks hsound (h.statement _) (Parse.takes_statement hadvancing),
      fun floor => balanced_of_tracks hsound (h.operation _ floor) Parse.takes_operationAt,
      balanced_of_tracks hsound (h.suffixedExpr _) (Parse.takes_suffixed hadvancing),
      balanced_of_tracks hsound (h.tableConstructor _) (Parse.takes_constructor hadvancing),
      balanced_of_tracks hsound (h.functionBody _) (Parse.takes_function hadvancing)⟩

/-- A block with a call, whose argument is a table with a function in it. -/
theorem parsing_ends_balanced_nested :
    ∃ x stat? m', lex "do f({function() end}) end" = .ok x ∧ Valid x ⟨9, 9⟩ {} ∧
      Returns (fun n => statement x ⟨9, 9⟩ (calls x ⟨9, 9⟩ n)) {} stat? m' ∧
      0 < m'.cursor ∧ m'.cursor ≤ x.lexemes.length ∧ m'.shape = ⟨0, [1]⟩ := by
  have hreads : ((lex "do f({function() end}) end").toOption.bind fun x =>
      (Parse.statement 9 (Parse.inner 9 9) ⟨x.lexemes, x.stop, {}, []⟩).toOption).isSome =
        true := by decide +kernel
  cases hlex : lex "do f({function() end}) end" with
  | error e =>
    rw [hlex] at hreads
    cases hreads
  | ok x =>
    rw [hlex] at hreads
    have hvalid : Valid x ⟨9, 9⟩ {} := ⟨⟨Nat.zero_le _, Nat.one_pos⟩, Nat.zero_le _⟩
    have hstart : Mirrors x {} ⟨x.lexemes, x.stop, {}, []⟩ := ⟨Nat.zero_le _, rfl, rfl, rfl⟩
    obtain ⟨-, -, hcalls⟩ := parsing_ends_balanced ⟨9, 9⟩ "do f({function() end}) end"
    obtain ⟨hstatement, -⟩ := hcalls x {} hvalid
    rcases hstatement with ⟨e, hfails⟩ | ⟨stat?, m', hreturns, hlt, hle, hshape⟩
    · have hdeeper : Deeper x ⟨9, 9⟩ 0 (Parse.inner 9 9) := deeper (Nat.zero_add _)
      rcases hdeeper.statement [1] {} _ hstart rfl List.nil_prefix with
        ⟨e', hrule, -⟩ | ⟨stat?, m', s', -, hreturns, -⟩
      · have hnone : (Parse.statement 9 (Parse.inner 9 9) ⟨x.lexemes, x.stop, {}, []⟩).toOption =
            none := congrArg Except.toOption hrule
        rw [Except.toOption, Option.bind, hnone] at hreads
        cases hreads
      · exact absurd hreturns hfails.not_returns
    · exact ⟨x, stat?, m', rfl, hvalid, hreturns, hlt, hle, hshape⟩

end Descent

end LuaGraph.Chunk
