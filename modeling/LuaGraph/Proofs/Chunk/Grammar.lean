import LuaGraph.Proofs.Chunk.Cursor
import LuaGraph.Proofs.Chunk.Tree

/-!
# Parsing terms

With as many levels left as a term is high, its tokens are parsed to its tree and its constants are
counted, whatever follows that does not go on with an expression. Every rule of the grammar that a
term goes through has a lemma of its own about what it does in front of its tokens.

Result: `run_term`.
-/

namespace LuaGraph

open Chunk

/-! ## What follows an expression -/

namespace Chunk

/-- The token starts an index or the arguments of a call. -/
def Token.startsSuffix : Token → Bool
  | .mark .dot => true
  | .mark .openBracket => true
  | .mark .openParen => true
  | _ => false

/-- The token goes on with an expression before it. -/
def Token.continues : Token → Bool
  | .mark .dot => true
  | .mark .openBracket => true
  | .mark .openParen => true
  | .mark .plus => true
  | .mark .minus => true
  | .mark .star => true
  | .mark .slash => true
  | _ => false

/-- No token that follows goes on with an expression. -/
def Closed (rest : List Token) : Prop := ∀ t ∈ rest.head?, t.continues = false

/-- Neither an index nor the arguments of a call follow. -/
def Unsuffixed (rest : List Token) : Prop := ∀ t ∈ rest.head?, t.startsSuffix = false

theorem Closed.unsuffixed {rest : List Token} (h : Closed rest) : Unsuffixed rest := by
  intro t ht
  have := h t ht
  unfold Token.startsSuffix
  split <;> simp_all [Token.continues]

/-- No operator follows that binds tighter than the given priority. -/
def Stops (floor : Nat) (rest : List Token) : Prop :=
  ∀ op ∈ Parse.operator? rest.head?, op.priority ≤ floor

theorem Closed.stops {rest : List Token} (h : Closed rest) (floor : Nat) : Stops floor rest := by
  intro op hop
  cases rest with
  | nil => cases hop
  | cons t rest =>
    have := h t rfl
    unfold Parse.operator? at hop
    split at hop <;> simp_all [Token.continues]

namespace Parse

variable {max levels : Nat} {s s' : State} {ts rest : List Token}

theorem run_operation_of_stops {inner : Inner} {floor : Nat} {e : Expr}
    (h : Stops floor s.tokens) : operation inner floor e s = .ok (.inr e, s) := by
  unfold operation
  rw [run_bind (run_peek s)]
  unfold Stops at h
  cases hop : operator? s.tokens.head? with
  | none => rfl
  | some op =>
    rw [hop] at h
    simp only [if_pos (h op rfl)]
    rfl

/-- An operand after which the expression ends. -/
theorem run_operations {inner : Inner} {floor : Nat} {e : Expr}
    (hhead : s.tokens.head? ≠ some (.mark .minus)) (h : operand max inner s = .ok (e, s'))
    (hstop : Stops floor s'.tokens) : operations max inner floor s = .ok (e, s') := by
  unfold operations
  rw [run_bind (run_accept_of_ne hhead)]
  simp only [Bool.false_eq_true, if_false]
  rw [run_bind h]
  exact run_rounds (.stop (run_operation_of_stops hstop)) (Nat.zero_le _)

/-- A minus sign and an operand after which the expression ends. -/
theorem run_operations_minus {inner : Inner} {floor : Nat} {e : Expr}
    (hs : s.tokens = .mark .minus :: ts)
    (h : inner.operation signPriority (s.past 1 []) = .ok (e, s'))
    (hstop : Stops floor s'.tokens) : operations max inner floor s = .ok (.negate e, s') := by
  unfold operations
  rw [run_bind (run_accept hs)]
  simp only [if_true]
  rw [run_bind (run_map h)]
  exact run_rounds (.stop (run_operation_of_stops hstop)) (Nat.zero_le _)

/-! ## Literals -/

theorem run_operand_token (inner : Inner) {c : Constant} (hs : s.tokens = c.token :: rest)
    (hr : s.Room max [c]) : operand max inner s = .ok (c.expr, s.past 1 [c]) := by
  have hconstant : addConstant max c (s.past 1 []) = .ok ((), s.past 1 [c]) :=
    run_addConstant (State.room_past.2 hr)
  unfold operand
  rw [run_bind (run_peek s), hs]
  cases c <;>
    (simp only [Constant.token, List.head?_cons]
     rw [run_bind (run_advance s), run_bind hconstant]
     rfl)

theorem run_token {c : Constant} (hs : s.tokens = c.token :: rest) (hr : s.Room max [c])
    {floor : Nat} (hstop : Stops floor rest) (hl : 1 ≤ levels) :
    (inner max levels).operation floor s = .ok (c.expr, s.past 1 [c]) := by
  obtain ⟨l, rfl⟩ : ∃ l, levels = l + 1 := ⟨levels - 1, by omega⟩
  rw [operation_succ]
  refine run_operations ?_ (run_operand_token _ hs hr) (by simpa [hs] using hstop)
  rw [hs]
  cases c <;> simp [Constant.token]

/-- A literal with its sign. -/
theorem run_signed {neg : Bool} {c : Constant} (hs : s.tokens = signed neg [c.token] ++ rest)
    (hr : s.Room max [c]) {floor : Nat} (hstop : Stops floor rest)
    (hstop' : Stops signPriority rest) (hl : (if neg then 2 else 1) ≤ levels) :
    (inner max levels).operation floor s =
      .ok (signedExpr neg c.expr, s.past (signed neg [c.token]).length [c]) := by
  cases neg with
  | false => exact run_token hs hr hstop hl
  | true =>
    rw [if_pos rfl] at hl
    obtain ⟨l, rfl⟩ : ∃ l, levels = l + 1 := ⟨levels - 1, by omega⟩
    have hs' : (s.past 1 []).tokens = c.token :: rest := by rw [State.tokens_past, hs]; rfl
    have hliteral := run_token hs' (State.room_past.2 hr) hstop' (show 1 ≤ l by omega)
    rw [State.past_past] at hliteral
    rw [operation_succ]
    refine run_operations_minus hs hliteral ?_
    rw [State.tokens_past, hs]
    exact hstop

/-! ## Names and parentheses -/

/-- What stands in front of tokens that are no suffix of it has none. -/
theorem run_suffix_of_unsuffixed {inner : Inner} (h : Unsuffixed s.tokens) (e : Expr) :
    suffix max inner e s = .ok (.inr e, s) := by
  unfold suffix
  rw [run_bind (run_peek s)]
  cases hs : s.tokens with
  | nil => rfl
  | cons t ts =>
    rw [hs] at h
    have ht := h t rfl
    cases t with
    | mark m => cases m <;> first | rfl | exact absurd ht (by decide)
    | _ => rfl

/-- What stands in front, with its suffixes, up to tokens that do not go on with it. -/
theorem run_suffixed {inner : Inner} {first e : Expr} {k : Nat} {s'' : State}
    (h : primary max inner s = .ok (first, s'))
    (hchain : Chain (suffix max inner) k first s' e s'') (hk : k ≤ s'.tokens.length)
    (hclosed : Closed s''.tokens) : suffixed max inner s = .ok (e, s'') := by
  unfold suffixed
  rw [run_bind h]
  exact run_rounds (hchain.repeats (run_suffix_of_unsuffixed hclosed.unsuffixed e)) hk

/-- A token that starts neither a literal nor a constructor starts a name or a parenthesis. -/
theorem run_operand_suffixed {inner : Inner}
    (hs : (∃ name, s.tokens.head? = some (.name name)) ∨
      s.tokens.head? = some (.mark .openParen)) :
    operand max inner s = suffixed max inner s := by
  unfold operand
  rw [run_bind (run_peek s)]
  rcases hs with ⟨name, hs⟩ | hs <;> rw [hs]

theorem run_primary_local {inner : Inner} {name : String} (hs : s.tokens = .name name :: rest)
    (hlocal : s.isLocal name = true) :
    primary max inner s = .ok (.name name, s.past 1 []) := by
  unfold primary
  have hget : (get : Parse State) (s.past 1 []) = .ok (s.past 1 [], s.past 1 []) := rfl
  rw [run_bind (run_peek s), hs]
  simp only [List.head?_cons]
  rw [run_bind (run_advance s), run_bind hget, State.isLocal_past, hlocal]
  simp
  rfl

/-- What is in parentheses is an expression. -/
theorem primary_of_parenthesis (max : Nat) (inner : Inner)
    (hs : s.tokens = .mark .openParen :: ts) :
    primary max inner s = (do
      let e ← inner.expr
      expect (.mark .closeParen)
      return e : Parse Expr) (s.past 1 []) := by
  unfold primary
  rw [run_bind (run_peek s), hs]
  simp only [List.head?_cons]
  rw [run_bind (run_advance s)]

theorem run_primary_parenthesised (max : Nat) {inner : Inner} {e : Expr}
    (hs : s.tokens = .mark .openParen :: ts) (h : inner.expr (s.past 1 []) = .ok (e, s'))
    (hs' : s'.tokens = .mark .closeParen :: rest) :
    primary max inner s = .ok (e, s'.past 1 []) := by
  rw [primary_of_parenthesis max inner hs, run_bind h, run_bind (run_expect hs')]
  rfl

theorem operator?_markOf (op : Operator) :
    operator? (some (.mark (Spelling.markOf op))) = some op := by
  cases op <;> rfl

/-- An operator and the literal after it, up to the end of the expression. -/
theorem run_right (left : Expr) {op : Operator} {right : Constant}
    (hs : s.tokens = .mark (Spelling.markOf op) :: right.token :: .mark .closeParen :: rest)
    (hr : s.Room max [right]) (hl : 1 ≤ levels) :
    rounds (operation (inner max levels) 0) left s =
      .ok (.binary op left right.expr, s.past 2 [right]) := by
  have hs₁ : (s.past 1 []).tokens = right.token :: .mark .closeParen :: rest := by
    rw [State.tokens_past, hs]
    rfl
  have hs₂ : (s.past 2 [right]).tokens = .mark .closeParen :: rest := by
    rw [State.tokens_past, hs]
    rfl
  have hclosed (floor : Nat) : Stops floor (.mark .closeParen :: rest) := by
    intro op hop
    cases hop
  have hright := run_token hs₁ (State.room_past.2 hr) (hclosed op.priority) hl
  rw [State.past_past] at hright
  have hround : operation (inner max levels) 0 left s =
      .ok (.inl (.binary op left right.expr), s.past 2 [right]) := by
    unfold operation
    have hpriority : ¬op.priority ≤ 0 := by cases op <;> decide
    rw [run_bind (run_peek s), hs, List.head?_cons, operator?_markOf]
    simp only [if_neg hpriority]
    rw [run_bind (run_advance s), run_bind hright]
    rfl
  exact run_rounds (.next hround (.stop (run_operation_of_stops (by rw [hs₂]; exact hclosed 0))))
    (by rw [hs]; simp)

/-- A literal with its sign, an operator and a literal. -/
theorem run_binary {neg : Bool} {left right : Constant} {op : Operator}
    (hs : s.tokens =
      signed neg [left.token, .mark (Spelling.markOf op), right.token] ++ .mark .closeParen :: rest)
    (hr : s.Room max [left, right]) (hl : 2 ≤ levels) :
    (inner max levels).expr s = .ok (.binary op (signedExpr neg left.expr) right.expr,
      s.past (signed neg [left.token, .mark (Spelling.markOf op), right.token]).length
        [left, right]) := by
  obtain ⟨l, rfl⟩ : ∃ l, levels = l + 1 := ⟨levels - 1, by omega⟩
  have hleft : s.Room max [left] := hr.left
  have hstop : Stops signPriority
      (.mark (Spelling.markOf op) :: right.token :: .mark .closeParen :: rest) := by
    intro op' hop
    cases op <;> cases hop <;> decide
  rw [Inner.expr, operation_succ]
  unfold operations
  cases neg with
  | false =>
    have hhead : s.tokens.head? ≠ some (.mark .minus) := by
      rw [hs]
      cases left <;> simp [signed, Constant.token]
    have hoperand := run_operand_token (inner max l) hs hleft
    have hright := run_right left.expr (s := s.past 1 [left])
      (by rw [State.tokens_past, hs]; rfl) (State.room_past.2 hr) (show 1 ≤ l by omega)
    rw [State.past_past] at hright
    rw [run_bind (run_accept_of_ne hhead)]
    simp only [Bool.false_eq_true, if_false]
    rw [run_bind hoperand]
    exact hright
  | true =>
    have hs₁ : (s.past 1 []).tokens = left.token :: .mark (Spelling.markOf op) :: right.token ::
        .mark .closeParen :: rest := by
      rw [State.tokens_past, hs]
      rfl
    have hoperand := run_token hs₁ (State.room_past.2 hleft) hstop (show 1 ≤ l by omega)
    have hright := run_right (.negate left.expr) (s := s.past 2 [left])
      (by rw [State.tokens_past, hs]; rfl) (State.room_past.2 hr) (show 1 ≤ l by omega)
    rw [State.past_past] at hoperand hright
    rw [run_bind (run_accept hs)]
    simp only [if_true]
    rw [run_bind (run_map hoperand)]
    exact hright

/-! ## Numbers and slots -/

/-- An operand in front of tokens that do not go on with it. -/
theorem run_operation_suffixed {e : Expr} {floor : Nat}
    (hs : (∃ name, s.tokens.head? = some (.name name)) ∨
      s.tokens.head? = some (.mark .openParen))
    (h : suffixed max (inner max levels) s = .ok (e, s')) (hstop : Stops floor s'.tokens) :
    (inner max (levels + 1)).operation floor s = .ok (e, s') := by
  rw [operation_succ]
  refine run_operations ?_ (by rw [run_operand_suffixed hs, h]) hstop
  rcases hs with ⟨name, hs⟩ | hs <;> simp [hs]

theorem run_spelling {w : Spelling} (hs : s.tokens = w.tokens ++ rest) (hclosed : Closed rest)
    (hr : s.Room max w.constants) (hl : w.height ≤ levels) (floor : Nat) :
    (inner max levels).operation floor s = .ok (w.expr, s.past w.tokens.length w.constants) := by
  cases w with
  | literal neg c => exact run_signed hs hr (hclosed.stops _) (hclosed.stops _) hl
  | operation neg left op right =>
    obtain ⟨l, rfl⟩ : ∃ l, levels = l + 1 := ⟨levels - 1, by simp [Spelling.height] at hl; omega⟩
    generalize hts : signed neg [left.token, .mark (Spelling.markOf op), right.token] = ts
    have hs' : s.tokens = .mark .openParen :: (ts ++ .mark .closeParen :: rest) := by
      rw [hs, Spelling.tokens, parenthesised, hts]
      simp
    have hs₁ : (s.past 1 []).tokens = ts ++ .mark .closeParen :: rest := by
      rw [State.tokens_past, hs']
      rfl
    have hbinary := run_binary (hs₁.trans (by rw [hts])) (State.room_past.2 hr)
      (by simp [Spelling.height] at hl; omega)
    rw [hts, State.past_past] at hbinary
    have hs₂ : (s.past (1 + ts.length) [left, right]).tokens = .mark .closeParen :: rest := by
      rw [State.tokens_past, ← List.drop_drop, ← State.tokens_past s 1 [], hs₁, List.drop_left]
    have hprimary := run_primary_parenthesised max hs' hbinary hs₂
    have hlength : (Spelling.operation neg left op right).tokens.length = 1 + ts.length + 1 := by
      simp [Spelling.tokens, parenthesised, hts]
      omega
    rw [State.past_past, List.append_nil, List.nil_append, ← hlength] at hprimary
    have hrest : (s.past (Spelling.operation neg left op right).tokens.length
        [left, right]).tokens = rest := State.tokens_past_of_eq hs _
    have hsuffixed := run_suffixed hprimary .nil (Nat.zero_le _) (by rwa [hrest])
    exact run_operation_suffixed (.inr (by rw [hs', List.head?_cons])) hsuffixed
      (by rw [Spelling.constants, hrest]; exact hclosed.stops floor)

theorem run_suffix_bracket (max : Nat) {inner : Inner} {e k : Expr}
    (hs : s.tokens = .mark .openBracket :: ts) (h : inner.expr (s.past 1 []) = .ok (k, s'))
    (hs' : s'.tokens = .mark .closeBracket :: rest) :
    suffix max inner e s = .ok (.inl (.index e k), s'.past 1 []) := by
  unfold suffix
  rw [run_bind (run_peek s), hs]
  simp only [List.head?_cons]
  rw [run_bind (run_advance s), run_bind h, run_bind (run_expect hs')]
  rfl

theorem run_suffix_arguments (max : Nat) {inner : Inner} {e : Expr} {args : List Expr}
    (hs : s.tokens = .mark .openParen :: ts) (h : arguments inner (s.past 1 []) = .ok (args, s')) :
    suffix max inner e s = .ok (.inl (.call e args), s') := by
  unfold suffix
  rw [run_bind (run_peek s), hs]
  simp only [List.head?_cons]
  rw [run_bind (run_advance s), run_bind h]
  rfl

theorem run_suffix_dot {inner : Inner} {e : Expr} {name : String}
    (hs : s.tokens = .mark .dot :: .name name :: rest) (hr : s.Room max [.string name]) :
    suffix max inner e s = .ok (.inl (.index e (.string name)), s.past 2 [.string name]) := by
  have hs₁ : (s.past 1 []).tokens = .name name :: rest := by
    rw [State.tokens_past, hs]
    rfl
  have hconstant := run_addConstant (s := (s.past 1 []).past 1 [])
    (State.room_past.2 (State.room_past.2 hr))
  unfold suffix
  rw [run_bind (run_peek s), hs]
  simp only [List.head?_cons]
  rw [run_bind (run_advance s), run_bind (run_expectName hs₁), run_bind hconstant,
    State.past_past, State.past_past]
  rfl

/-- The index in the text of a slot. -/
theorem run_suffix_slot {e : Expr} {i : Nat}
    (hs : s.tokens = (Term.slotTokens i).drop 1 ++ rest) (hr : s.Room max [naturalConstant i])
    (hl : 1 ≤ levels) : suffix max (inner max levels) e s =
      .ok (.inl (.index e (naturalConstant i).expr), s.past 3 [naturalConstant i]) := by
  have hs₁ : (s.past 1 []).tokens = (naturalConstant i).token :: .mark .closeBracket :: rest := by
    rw [State.tokens_past, hs]
    rfl
  have hstop : Stops 0 (.mark .closeBracket :: rest) := by
    intro op hop
    cases hop
  have hkey := run_token hs₁ (State.room_past.2 hr) hstop hl
  have hs₂ : ((s.past 1 []).past 1 [naturalConstant i]).tokens = .mark .closeBracket :: rest := by
    rw [State.tokens_past, hs₁]
    rfl
  rw [State.past_past] at hkey hs₂
  have := run_suffix_bracket max (e := e) hs hkey hs₂
  rwa [State.past_past] at this

theorem run_slot {i : Nat} (hs : s.tokens = Term.slotTokens i ++ rest) (hclosed : Closed rest)
    (hlocal : s.isLocal Term.slotTable = true) (hr : s.Room max [naturalConstant i])
    (hl : 2 ≤ levels) (floor : Nat) : (inner max levels).operation floor s =
      .ok ((Term.slot i).expr, s.past 4 [naturalConstant i]) := by
  obtain ⟨l, rfl⟩ : ∃ l, levels = l + 1 := ⟨levels - 1, by omega⟩
  have hrest : (s.past 4 [naturalConstant i]).tokens = rest := State.tokens_past_of_eq hs _
  have hindex := run_suffix_slot (e := .name Term.slotTable)
    (s := s.past 1 []) (i := i) (by rw [State.tokens_past, hs]; rfl)
    (State.room_past.2 hr) (show 1 ≤ l by omega)
  rw [State.past_past] at hindex
  have hsuffixed := run_suffixed (run_primary_local hs hlocal) (.next hindex .nil)
    (by rw [State.tokens_past, hs]; simp [Term.slotTokens]) (hrest ▸ hclosed)
  exact run_operation_suffixed (.inl ⟨Term.slotTable, by rw [hs]; rfl⟩) hsuffixed
    (by rw [hrest]; exact hclosed.stops floor)

/-! ## Terms -/

theorem closed_mark {m : Mark} (h : (Token.mark m).continues = false) (ts : List Token) :
    Closed (.mark m :: ts) := by
  rintro t ⟨⟩
  exact h

theorem unsuffixed_mark {m : Mark} (h : (Token.mark m).startsSuffix = false) (ts : List Token) :
    Unsuffixed (.mark m :: ts) := by
  rintro t ⟨⟩
  exact h

/-- The key words that stand for values. -/
def keywordValues : List (String × Expr) :=
  [("nil", .nil), ("true", .boolean true), ("false", .boolean false)]

theorem run_operand_keyword (max : Nat) (inner : Inner) {name : String} {e : Expr}
    (hs : s.tokens = .keyword name :: rest) (he : (name, e) ∈ keywordValues) :
    operand max inner s = .ok (e, s.past 1 []) := by
  unfold operand
  rw [run_bind (run_peek s), hs]
  have hvalue (e : Expr) : (advance >>= fun _ => pure e : Parse Expr) s = .ok (e, s.past 1 []) := by
    rw [run_bind (run_advance s)]
    rfl
  simp only [keywordValues, List.mem_cons, Prod.mk.injEq, List.not_mem_nil, or_false] at he
  rcases he with ⟨rfl, rfl⟩ | ⟨rfl, rfl⟩ | ⟨rfl, rfl⟩
  · exact hvalue .nil
  · exact hvalue (.boolean true)
  · exact hvalue (.boolean false)

/-- A key word that stands for a value is an expression. -/
theorem run_keyword {name : String} {e : Expr} (hs : s.tokens = .keyword name :: rest)
    (he : (name, e) ∈ keywordValues) (hclosed : Closed rest) (hl : 1 ≤ levels) (floor : Nat) :
    (inner max levels).operation floor s = .ok (e, s.past 1 []) := by
  obtain ⟨l, rfl⟩ : ∃ l, levels = l + 1 := ⟨levels - 1, by omega⟩
  have hrest : (s.past 1 []).tokens = rest := by rw [State.tokens_past, hs]; rfl
  rw [operation_succ]
  exact run_operations (by simp [hs]) (run_operand_keyword max _ hs he)
    (by rw [hrest]; exact hclosed.stops floor)

theorem run_atom {a : Atom} (hs : s.tokens = a.tokens ++ rest) (hclosed : Closed rest)
    (hr : s.Room max a.constants) (hl : a.height ≤ levels) (floor : Nat) :
    (inner max levels).operation floor s = .ok (a.expr, s.past a.tokens.length a.constants) := by
  cases a with
  | nil => exact run_keyword hs (by simp [Atom.expr, keywordValues]) hclosed hl floor
  | boolean b =>
    cases b <;> exact run_keyword hs (by simp [Atom.expr, keywordValues]) hclosed hl floor
  | number n =>
    rw [Atom.tokens, ← tokens_spelling] at *
    exact run_spelling hs hclosed hr hl floor
  | string str => exact run_token (c := .string str) hs hr (hclosed.stops floor) hl
  | remark shown => exact run_keyword hs (by simp [Atom.expr, keywordValues]) hclosed hl floor

/-- The tokens start a value: neither with a bracket nor with a name before an equals sign. -/
def Starts (ts : List Token) : Prop :=
  ∃ t us, ts = t :: us ∧ t ≠ .mark .openBracket ∧ t ≠ .mark .closeBrace ∧
    ((∃ name, t = .name name) → us.head? = some (.mark .openBracket))

theorem starts_signed (neg : Bool) (c : Constant) (ts : List Token) :
    Starts (signed neg (c.token :: ts)) := by
  cases neg with
  | true => exact ⟨.mark .minus, c.token :: ts, rfl, by simp, by simp, by simp⟩
  | false => cases c <;> exact ⟨_, ts, rfl, by simp [Constant.token], by simp [Constant.token],
      by simp [Constant.token]⟩

theorem starts_term {n : Nat} {t : Term} (h : t.Writable n) (trailing : Bool) :
    Starts (t.tokens trailing) := by
  cases t with
  | atom a =>
    cases a with
    | number m =>
      rw [Term.tokens, Atom.tokens, ← tokens_spelling]
      cases m.spelling with
      | literal neg c => exact starts_signed neg c []
      | operation neg left op right => exact ⟨.mark .openParen, _, rfl, by simp, by simp, by simp⟩
    | _ => exact ⟨_, [], rfl, by simp, by simp, by simp⟩
  | slot i => exact ⟨.name Term.slotTable, _, rfl, by simp, by simp, fun _ => rfl⟩
  | tooDeep => exact h.elim
  | table fs => exact ⟨.mark .openBrace, _, rfl, by simp, by simp, by simp⟩

/-- A round of a table constructor. -/
def constructorRound (max : Nat) (inner : Inner) (parts : List Part) :
    Parse (List Part ⊕ Expr) := do
  if ← accept (.mark .closeBrace) then return .inr (.table parts.reverse)
  let p ← part max inner
  if ← separator then return .inl (p :: parts)
  expect (.mark .closeBrace)
  return .inr (.table (p :: parts).reverse)

/-- The token separates the parts of a table. -/
def Separates (k : Option Token) : Prop := k = some (.mark .comma) ∨ k = some (.mark .semicolon)

instance (k : Option Token) : Decidable (Separates k) := inferInstanceAs (Decidable (_ ∨ _))

theorem run_separator_eq (s : State) : separator s =
    if Separates s.tokens.head? then .ok (true, s.past 1 []) else .ok (false, s) := by
  by_cases hcomma : s.tokens.head? = some (.mark .comma)
  · have haccept := run_accept_eq (.mark .comma) s
    rw [if_pos hcomma] at haccept
    rw [if_pos (.inl hcomma)]
    exact run_bind haccept
  · have haccept := run_accept_eq (.mark .comma) s
    rw [if_neg hcomma] at haccept
    have hrun : separator s = accept (.mark .semicolon) s := run_bind haccept
    rw [hrun, run_accept_eq]
    simp only [Separates, hcomma, false_or]

section

variable {inner : Inner} {parts : List Part} {x : List Part ⊕ Expr}

/-- What a round of a table does after a part: it goes on after a separator, or ends the table. -/
structure EndsPart (parts : List Part) (p : Part) (s s' : State) (x : List Part ⊕ Expr) : Prop where
  state : s' = s.past 1 []
  result : Separates s.tokens.head? ∧ x = .inl (p :: parts) ∨
    s.tokens.head? = some (.mark .closeBrace) ∧ x = .inr (.table (p :: parts).reverse)

theorem endsPart_iff {p : Part} : (do
      if ← separator then return .inl (p :: parts)
      expect (.mark .closeBrace)
      return .inr (.table (p :: parts).reverse) : Parse (List Part ⊕ Expr)) s = .ok (x, s') ↔
    EndsPart parts p s s' x := by
  have hseparator := run_separator_eq s
  by_cases hs : Separates s.tokens.head?
  · rw [if_pos hs] at hseparator
    rw [run_bind hseparator]
    constructor
    · rintro ⟨⟩
      exact ⟨rfl, .inl ⟨hs, rfl⟩⟩
    · rintro ⟨rfl, ⟨-, rfl⟩ | ⟨hbrace, -⟩⟩
      · rfl
      · rcases hs with hs | hs <;> cases hs.symm.trans hbrace
  · rw [if_neg hs] at hseparator
    rw [run_bind hseparator]
    simp only [Bool.false_eq_true, if_false]
    rw [bind_eq_ok]
    constructor
    · rintro ⟨_, _, hexpect, ⟨⟩⟩
      obtain ⟨hbrace, ⟨⟩⟩ := run_expect_eq_ok_iff.1 hexpect
      exact ⟨rfl, .inr ⟨hbrace, rfl⟩⟩
    · rintro ⟨rfl, ⟨hseparates, -⟩ | ⟨hbrace, rfl⟩⟩
      · exact absurd hseparates hs
      · exact ⟨_, _, run_expect_eq_ok_iff.2 ⟨hbrace, rfl⟩, rfl⟩

/-- **A round of a table** ends it at a closing brace, or takes a part and goes on. -/
theorem constructorRound_eq_ok_iff : constructorRound max inner parts s = .ok (x, s') ↔
    (s.tokens.head? = some (.mark .closeBrace) ∧ x = .inr (.table parts.reverse) ∧
        s' = s.past 1 []) ∨
      s.tokens.head? ≠ some (.mark .closeBrace) ∧ ∃ p s₁, part max inner s = .ok (p, s₁) ∧
        EndsPart parts p s₁ s' x := by
  unfold constructorRound
  have haccept := run_accept_eq (.mark .closeBrace) s
  by_cases hs : s.tokens.head? = some (.mark .closeBrace)
  · rw [if_pos hs] at haccept
    rw [run_bind haccept]
    simp only [hs, ne_eq, not_true_eq_false, false_and, or_false, true_and]
    constructor
    · rintro ⟨⟩
      exact ⟨rfl, rfl⟩
    · rintro ⟨rfl, rfl⟩
      rfl
  · rw [if_neg hs] at haccept
    rw [run_bind haccept]
    simp only [Bool.false_eq_true, if_false, hs, ne_eq, not_false_eq_true, false_and, false_or,
      true_and]
    rw [bind_eq_ok]
    exact exists_congr fun p => exists_congr fun s₁ => and_congr_right fun _ => endsPart_iff

/-- The closing brace ends a constructor. -/
theorem run_constructorRound_close (max : Nat) (inner : Inner) (parts : List Part)
    (hs : s.tokens = .mark .closeBrace :: rest) : constructorRound max inner parts s =
      .ok (.inr (.table parts.reverse), s.past 1 []) :=
  constructorRound_eq_ok_iff.2 (.inl ⟨by rw [hs]; rfl, rfl, rfl⟩)

/-- A part with a comma after it. -/
theorem run_constructorRound_comma (parts : List Part) {p : Part}
    (hs : s.tokens.head? ≠ some (.mark .closeBrace)) (h : part max inner s = .ok (p, s'))
    (hs' : s'.tokens = .mark .comma :: rest) : constructorRound max inner parts s =
      .ok (.inl (p :: parts), s'.past 1 []) :=
  constructorRound_eq_ok_iff.2 (.inr ⟨hs, p, s', h, rfl, .inl ⟨.inl (by rw [hs']; rfl), rfl⟩⟩)

/-- A part with the closing brace after it. -/
theorem run_constructorRound_last (parts : List Part) {p : Part}
    (hs : s.tokens.head? ≠ some (.mark .closeBrace)) (h : part max inner s = .ok (p, s'))
    (hs' : s'.tokens = .mark .closeBrace :: rest) : constructorRound max inner parts s =
      .ok (.inr (.table (p :: parts).reverse), s'.past 1 []) :=
  constructorRound_eq_ok_iff.2 (.inr ⟨hs, p, s', h, rfl, .inr ⟨by rw [hs']; rfl, rfl⟩⟩)

end

/-- A constructor after its opening brace is an operand. -/
theorem operand_of_brace (max : Nat) (inner : Inner) (hs : s.tokens = .mark .openBrace :: ts) :
    operand max inner s = constructor max inner (s.past 1 []) := by
  unfold operand
  rw [run_bind (run_peek s), hs]
  simp only [List.head?_cons]
  rw [run_bind (run_advance s)]

theorem run_operation_constructor {e : Expr} {floor : Nat}
    (hs : s.tokens = .mark .openBrace :: ts)
    (h : constructor max (inner max levels) (s.past 1 []) = .ok (e, s'))
    (hstop : Stops floor s'.tokens) :
    (inner max (levels + 1)).operation floor s = .ok (e, s') := by
  rw [operation_succ]
  exact run_operations (by simp [hs]) ((operand_of_brace max _ hs).trans h) hstop

/-- A part that starts with a value is a value at the next place. -/
theorem part_of_starts (max : Nat) (inner : Inner) (hs : s.tokens = ts ++ rest) (ht : Starts ts) :
    part max inner s = (inner.expr >>= fun e => pure (Part.item e)) s := by
  obtain ⟨t, us, rfl, hbracket, -, hname⟩ := ht
  unfold part
  rw [run_bind (run_peekSecond s), run_bind (run_peek s), hs]
  simp only [List.cons_append, List.head?_cons, List.drop_one, List.tail_cons]
  cases t with
  | name str =>
    have hus := hname ⟨str, rfl⟩
    cases us with
    | nil => cases hus
    | cons u us =>
      obtain rfl : u = .mark .openBracket := by simpa using hus
      rfl
  | mark m =>
    cases m
    case openBracket => exact absurd rfl hbracket
    all_goals rfl
  | _ => rfl

/-- A part that starts with a name and an equals sign is a value under a name. -/
theorem part_of_named {inner : Inner} {name : String}
    (hs : s.tokens = .name name :: .mark .equals :: ts) (hr : s.Room max [.string name]) :
    part max inner s =
      (inner.expr >>= fun e => pure (Part.pair (.string name) e)) (s.past 2 [.string name]) := by
  have hconstant := run_addConstant (s := (s.past 1 []).past 1 [])
    (State.room_past.2 (State.room_past.2 hr))
  simp only [State.past_past, List.append_nil, List.nil_append, Nat.reduceAdd] at hconstant
  unfold part
  rw [run_bind (run_peekSecond s), run_bind (run_peek s), hs]
  simp only [List.head?_cons, List.drop_one, List.tail_cons, beq_self_eq_true, if_true]
  rw [run_bind (run_advance s), run_bind (run_advance _)]
  simp only [State.past_past, List.append_nil, Nat.reduceAdd]
  rw [run_bind hconstant]

/-- A part that starts with a bracket is a value under a key. -/
theorem part_of_bracket (max : Nat) (inner : Inner) (hs : s.tokens = .mark .openBracket :: ts) :
    part max inner s = (do
      let key ← inner.expr
      expect (.mark .closeBracket)
      expect (.mark .equals)
      return .pair key (← inner.expr) : Parse Part) (s.past 1 []) := by
  unfold part
  rw [run_bind (run_peekSecond s), run_bind (run_peek s), hs]
  simp only [List.head?_cons]
  rw [run_bind (run_advance s)]

theorem run_part_item {inner : Inner} {e : Expr} (hs : s.tokens = ts ++ rest) (ht : Starts ts)
    (h : inner.expr s = .ok (e, s')) : part max inner s = .ok (.item e, s') := by
  rw [part_of_starts max inner hs ht, run_bind h]
  rfl

theorem run_part_named {inner : Inner} {name : String} {e : Expr}
    (hs : s.tokens = .name name :: .mark .equals :: ts) (hr : s.Room max [.string name])
    (h : inner.expr (s.past 2 [.string name]) = .ok (e, s')) :
    part max inner s = .ok (.pair (.string name) e, s') := by
  rw [part_of_named hs hr, run_bind h]
  rfl

theorem run_part_bracketed (max : Nat) {inner : Inner} {k e : Expr} {s'' : State}
    (hs : s.tokens = .mark .openBracket :: ts) (hk : inner.expr (s.past 1 []) = .ok (k, s'))
    (hs' : s'.tokens = .mark .closeBracket :: .mark .equals :: rest)
    (h : inner.expr (s'.past 2 []) = .ok (e, s'')) :
    part max inner s = .ok (.pair k e, s'') := by
  have hs₁ : (s'.past 1 []).tokens = .mark .equals :: rest := by
    rw [State.tokens_past, hs']
    rfl
  have hs₂ := run_expect hs₁
  simp only [State.past_past, List.append_nil, Nat.reduceAdd] at hs₂
  rw [part_of_bracket max inner hs, run_bind hk, run_bind (run_expect hs'), run_bind hs₂,
    run_bind h]
  rfl

/-- What follows a field of a table continues no expression. -/
theorem closed_laterTokens (trailing : Bool) (fs : List Field) (rest : List Token) :
    Closed (Term.laterTokens trailing fs ++ .mark .closeBrace :: rest) := by
  cases fs with
  | nil => cases trailing <;> exact closed_mark rfl _
  | cons f fs => exact closed_mark rfl _

theorem length_laterTokens (trailing : Bool) (fs : List Field) :
    fs.length ≤ (Term.laterTokens trailing fs).length := by
  induction fs with
  | nil => exact Nat.zero_le _
  | cons f fs ih =>
    simp only [Term.laterTokens, List.length_cons, List.length_append]
    omega

theorem head_fieldTokens {n : Nat} {f : Field} (h : Term.FieldWritable n f) (trailing : Bool)
    (rest : List Token) :
    (Term.fieldTokens trailing f ++ rest).head? ≠ some (.mark .closeBrace) := by
  cases f with
  | item v =>
    obtain ⟨t, us, heq, -, ht, -⟩ := starts_term h trailing
    rw [Term.fieldTokens, heq]
    simpa using ht
  | pair k v =>
    rw [Term.fieldTokens]
    cases k.bareName? <;> simp

mutual

/-- **A term is parsed to its tree.** -/
theorem run_term (n : Nat) (trailing : Bool) : (t : Term) → t.Writable n →
    ∀ {s : State} {rest : List Token} {max levels : Nat} (floor : Nat),
      s.tokens = t.tokens trailing ++ rest → Closed rest →
      (0 < n → s.isLocal Term.slotTable = true) → s.Room max t.constants → t.height ≤ levels →
      (inner max levels).operation floor s =
        .ok (t.expr, s.past (t.tokens trailing).length t.constants)
  | .atom a, _, s, rest, max, levels, floor, hs, hclosed, _, hr, hl =>
    run_atom hs hclosed hr hl floor
  | .slot i, h, s, rest, max, levels, floor, hs, hclosed, hlocal, hr, hl =>
    run_slot hs hclosed (hlocal (Nat.lt_of_lt_of_le h.1 h.2)) hr hl floor
  | .tooDeep, h, _, _, _, _, _, _, _, _, _, _ => h.elim
  | .table [], _, s, rest, max, levels, floor, hs, hclosed, _, hr, hl => by
    obtain ⟨l, rfl⟩ : ∃ l, levels = l + 1 := ⟨levels - 1, by simp [Term.height] at hl; omega⟩
    have hs₁ : (s.past 1 []).tokens = .mark .closeBrace :: rest := by
      rw [State.tokens_past, hs]
      rfl
    have hround := run_constructorRound_close max (inner max l) [] hs₁
    rw [State.past_past] at hround
    have hrest : (s.past 2 []).tokens = rest := State.tokens_past_of_eq hs _
    refine run_operation_constructor hs (run_rounds (.stop hround) (Nat.zero_le _)) ?_
    exact (hrest ▸ hclosed : Closed (s.past 2 []).tokens).stops floor
  | .table (f :: fs), h, s, rest, max, levels, floor, hs, hclosed, hlocal, hr, hl => by
    obtain ⟨l, rfl⟩ : ∃ l, levels = l + 1 := ⟨levels - 1, by simp [Term.height] at hl; omega⟩
    have hrest := State.tokens_past_of_eq hs (Term.table (f :: fs)).constants
    have hs₁ : (s.past 1 []).tokens =
        Term.fieldsTokens trailing (f :: fs) ++ .mark .closeBrace :: rest := by
      rw [State.tokens_past, hs, Term.tokens]
      simp
    have hlength : 1 + ((Term.fieldsTokens trailing (f :: fs)).length + 1) =
        ((Term.table (f :: fs)).tokens trailing).length := by
      simp [Term.tokens]
      omega
    obtain ⟨k, hk, hrepeats⟩ := run_fields n trailing (f :: fs) (by simp) h [] hs₁
      hlocal (State.room_past.2 hr) (Nat.le_of_succ_le_succ hl)
    rw [State.past_past, hlength] at hrepeats
    refine run_operation_constructor hs (run_rounds hrepeats ?_) ?_
    · have := length_laterTokens trailing fs
      rw [hs₁, Term.fieldsTokens]
      simp only [List.length_append, List.length_cons] at hk ⊢
      omega
    · exact (hrest ▸ hclosed : Closed (State.tokens _)).stops floor

/-- The fields of a table are parsed round by round. -/
theorem run_fields (n : Nat) (trailing : Bool) : (fs : List Field) → fs ≠ [] →
    Term.FieldsWritable n fs →
    ∀ {s : State} {rest : List Token} {max levels : Nat} (parts : List Part),
      s.tokens = Term.fieldsTokens trailing fs ++ .mark .closeBrace :: rest →
      (0 < n → s.isLocal Term.slotTable = true) →
      s.Room max (Term.fieldsConstants fs) → Term.fieldsHeight fs ≤ levels →
      ∃ k ≤ fs.length, Repeats (constructorRound max (inner max levels)) k parts s
        (.table (parts.reverse ++ Term.fieldParts fs))
        (s.past ((Term.fieldsTokens trailing fs).length + 1) (Term.fieldsConstants fs))
  | [], hne, _, _, _, _, _, _, _, _, _, _ => absurd rfl hne
  | f :: fs, _, ⟨hf, hfs⟩, s, rest, max, levels, parts, hs, hlocal, hr, hl => by
    rw [Term.fieldsTokens, List.append_assoc] at hs
    have hclosed := closed_laterTokens trailing fs rest
    have hhead : s.tokens.head? ≠ some (.mark .closeBrace) := hs ▸ head_fieldTokens hf trailing _
    have hfield := run_field n trailing f hf hs hclosed hlocal hr.left
      (Nat.le_trans (Nat.le_max_left _ _) hl)
    have hs₁ := State.tokens_past_of_eq hs (Term.fieldConstants f)
    cases fs with
    | nil =>
      cases trailing with
      | false =>
        have hlast := run_constructorRound_last parts hhead hfield hs₁
        refine ⟨0, Nat.zero_le _, ?_⟩
        simpa [Term.fieldsTokens, Term.laterTokens, Term.fieldParts, Term.fieldsConstants] using
          Repeats.stop hlast
      | true =>
        have hcomma := run_constructorRound_comma parts hhead hfield hs₁
        rw [State.past_past] at hcomma
        have hs₂ : (s.past ((Term.fieldTokens true f).length + 1)
            (Term.fieldConstants f ++ [])).tokens = .mark .closeBrace :: rest := by
          rw [State.tokens_past, ← List.drop_drop, ← State.tokens_past, hs₁]
          rfl
        have hclose :=
          run_constructorRound_close max (inner max levels) (Term.fieldPart f :: parts) hs₂
        refine ⟨1, Nat.le_refl _, ?_⟩
        simpa [Term.fieldsTokens, Term.laterTokens, Term.fieldParts, Term.fieldsConstants] using
          Repeats.next hcomma (.stop hclose)
    | cons g gs =>
      have hcomma := run_constructorRound_comma parts hhead hfield hs₁
      rw [State.past_past, List.append_nil] at hcomma
      have hs₂ : (s.past ((Term.fieldTokens trailing f).length + 1)
          (Term.fieldConstants f)).tokens =
            Term.fieldsTokens trailing (g :: gs) ++ .mark .closeBrace :: rest := by
        rw [State.tokens_past, ← List.drop_drop, ← State.tokens_past s _ [],
          State.tokens_past_of_eq hs]
        rfl
      obtain ⟨k, hk, hrepeats⟩ := run_fields n trailing (g :: gs) (by simp) hfs
        (Term.fieldPart f :: parts) hs₂ hlocal (State.room_past.2 hr)
        (Nat.le_trans (Nat.le_max_right _ _) hl)
      refine ⟨k + 1, Nat.succ_le_succ hk, ?_⟩
      have hlength : (Term.fieldTokens trailing f).length + 1 +
          ((Term.fieldsTokens trailing (g :: gs)).length + 1) =
            (Term.fieldsTokens trailing (f :: g :: gs)).length + 1 := by
        simp only [Term.fieldsTokens, Term.laterTokens, List.length_append, List.length_cons]
        omega
      have := Repeats.next hcomma hrepeats
      rw [State.past_past, hlength] at this
      simpa [Term.fieldParts, Term.fieldsConstants] using this

/-- A field is parsed to its part. -/
theorem run_field (n : Nat) (trailing : Bool) : (f : Field) → Term.FieldWritable n f →
    ∀ {s : State} {rest : List Token} {max levels : Nat},
      s.tokens = Term.fieldTokens trailing f ++ rest → Closed rest →
      (0 < n → s.isLocal Term.slotTable = true) → s.Room max (Term.fieldConstants f) →
      Term.fieldHeight f ≤ levels → part max (inner max levels) s =
        .ok (Term.fieldPart f, s.past (Term.fieldTokens trailing f).length (Term.fieldConstants f))
  | .item v, h, s, rest, max, levels, hs, hclosed, hlocal, hr, hl =>
    run_part_item hs (starts_term h trailing) (run_term n trailing v h 0 hs hclosed hlocal hr hl)
  | .pair k v, h, s, rest, max, levels, hs, hclosed, hlocal, hr, hl => by
    have hlv : v.height ≤ levels := Nat.le_trans (Nat.le_max_right _ _) hl
    cases hk : k.bareName? with
    | some name =>
      obtain rfl := eq_of_bareName? hk
      rw [Term.fieldTokens, hk] at hs ⊢
      have hs₁ : (s.past 2 [.string name]).tokens = v.tokens trailing ++ rest := by
        rw [State.tokens_past, hs]
        rfl
      have hvalue := run_term n trailing v h.2 0 hs₁ hclosed hlocal (State.room_past.2 hr) hlv
      have hlength : ([Token.name name] ++ .mark .equals :: v.tokens trailing).length =
          2 + (v.tokens trailing).length := by
        simp only [List.length_append, List.length_cons, List.length_nil]
        omega
      rw [run_part_named hs (hr.left) hvalue, State.past_past, hlength]
      rfl
    | none =>
      rw [Term.fieldTokens, hk] at hs ⊢
      have hs₁ : (s.past 1 []).tokens = k.tokens trailing ++
          (.mark .closeBracket :: .mark .equals :: (v.tokens trailing ++ rest)) := by
        rw [State.tokens_past, hs]
        simp
      have hkey := run_term n trailing k h.1 0 hs₁ (closed_mark rfl _) hlocal
        (State.room_past.2 hr.left) (Nat.le_trans (Nat.le_max_left _ _) hl)
      have hs₂ := State.tokens_past_of_eq hs₁ k.constants
      have hs₃ : (((s.past 1 []).past (k.tokens trailing).length k.constants).past 2 []).tokens =
          v.tokens trailing ++ rest := by
        rw [State.tokens_past, hs₂]
        rfl
      have hvalue := run_term n trailing v h.2 0 hs₃ hclosed hlocal
        (by simpa [State.room_past, Term.fieldConstants] using hr) hlv
      have hlength : (Token.mark .openBracket :: k.tokens trailing ++ [Token.mark .closeBracket] ++
          Token.mark .equals :: v.tokens trailing).length =
            1 + (k.tokens trailing).length + 2 + (v.tokens trailing).length := by
        simp only [List.length_append, List.length_cons, List.length_nil]
        omega
      have := run_part_bracketed max hs hkey hs₂ hvalue
      simp only [State.past_past, List.append_nil, List.nil_append, ← hlength] at this
      exact this

end

end Parse

end Chunk

end LuaGraph
