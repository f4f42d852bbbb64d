import LuaGraph.Proofs.Chunk.Rounds

/-!
# The levels of terms

A term needs as many levels as it is high. With no fewer it is parsed (`run_term`), and with fewer
its tokens are rejected: wherever the parser gets through them, it has opened a level (`enter`) for
every table around a value, one for the value, one more for a sign, and two more for an operation in
parentheses.

The proofs follow a run of the parser that is known to succeed from rule to rule. A rule with a
ceiling of no levels has no result, so every expression on the way shows that a level was left.

Result: `height_le_of_succeeds`.
-/

namespace LuaGraph

open Chunk

namespace Chunk.Parse

/-! ## Runs that succeed -/

/-- The parser has a result at the state. -/
def Succeeds {α : Type} (p : Parse α) (s : State) : Prop := ∃ r, p s = .ok r

section

variable {α β : Type} {p : Parse α} {f : α → Parse β} {a : α} {s s' : State}

/-- What runs alike succeeds as well. -/
theorem Succeeds.congr {q : Parse α} (h : Succeeds p s) (hrun : p s = q s') : Succeeds q s' := by
  unfold Succeeds at h
  rwa [hrun] at h

/-- What comes first succeeds. -/
theorem Succeeds.first (h : Succeeds (p >>= f) s) : Succeeds p s := by
  obtain ⟨_, hrun⟩ := h
  obtain ⟨a, s', hp, -⟩ := bind_eq_ok.1 hrun
  exact ⟨(a, s'), hp⟩

/-- What comes after a part whose result is known succeeds there. -/
theorem Succeeds.after (h : Succeeds (p >>= f) s) (hp : p s = .ok (a, s')) :
    Succeeds (f a) s' := by
  obtain ⟨r, hrun⟩ := h
  rw [run_bind hp] at hrun
  exact ⟨r, hrun⟩

/-- The first round of a repetition succeeds. -/
theorem Succeeds.round {f : α → Parse (α ⊕ β)} (h : Succeeds (rounds f a) s) :
    Succeeds (f a) s := by
  obtain ⟨⟨b, s'⟩, hrun⟩ := h
  obtain ⟨n, hn⟩ := exists_repeats (show roundsWithin f s.lexemes a s = .ok (b, s') from hrun)
  cases hn with
  | stop hround => exact ⟨_, hround⟩
  | next hround _ => exact ⟨_, hround⟩

end

section

variable {max levels floor : Nat} {i : Inner} {s : State} {ts rest : List Token}

/-- An expression takes a level. -/
theorem Succeeds.level (h : Succeeds ((inner max levels).operation floor) s) :
    ∃ l, levels = l + 1 ∧ Succeeds (operations max (inner max l) floor) s := by
  cases levels with
  | zero =>
    obtain ⟨_, hrun⟩ := h
    simp only [inner, operationAt] at hrun
    cases hrun
  | succ l =>
    rw [operation_succ] at h
    exact ⟨l, rfl, h⟩

theorem Succeeds.operand (h : Succeeds (operations max i floor) s)
    (hs : s.tokens.head? ≠ some (.mark .minus)) : Succeeds (operand max i) s :=
  (h.after (run_accept_of_ne hs)).first

/-- What comes after a minus sign takes a level of its own. -/
theorem Succeeds.negated (h : Succeeds (operations max i floor) s)
    (hs : s.tokens = .mark .minus :: ts) : Succeeds (i.operation signPriority) (s.past 1 []) := by
  have hoperand := (h.after (run_accept hs)).first
  rw [← bind_pure_comp] at hoperand
  exact hoperand.first

/-! ## Atoms -/

/-- What is in parentheses takes a level of its own. -/
theorem Succeeds.parenthesised (h : Succeeds (operations max i floor) s)
    (hs : s.tokens = .mark .openParen :: ts) : Succeeds i.expr (s.past 1 []) := by
  have hsuffixed := (h.operand (by simp [hs])).congr
    (run_operand_suffixed (.inr (by rw [hs]; rfl)))
  exact (hsuffixed.first.congr (primary_of_parenthesis max i hs)).first

/-- An operation on two literals takes a level besides its own. -/
theorem Succeeds.operation {neg : Bool} {left right : Constant} {op : Operator}
    (h : Succeeds (operations max (inner max levels) 0) s)
    (hs : s.tokens = signed neg [left.token, .mark (Spelling.markOf op), right.token] ++ rest)
    (hr : s.Room max [left]) : 1 ≤ levels := by
  cases neg with
  | true =>
    obtain ⟨l, rfl, -⟩ := (h.negated hs).level
    exact Nat.le_add_left 1 l
  | false =>
    have hhead : s.tokens.head? ≠ some (.mark .minus) := by
      rw [hs]
      cases left <;> simp [signed, Constant.token]
    have hleft := run_operand_token (inner max levels) hs hr
    have hround := ((h.after (run_accept_of_ne hhead)).after hleft).round
    have hs₁ : (s.past 1 [left]).tokens = .mark (Spelling.markOf op) :: right.token :: rest := by
      rw [State.tokens_past, hs]
      rfl
    have hpriority : ¬op.priority ≤ 0 := by cases op <;> decide
    have hright := hround.after (run_peek _)
    rw [hs₁, List.head?_cons, operator?_markOf] at hright
    simp only [if_neg hpriority] at hright
    obtain ⟨l, rfl, -⟩ := (hright.after (run_advance _)).first.level
    exact Nat.le_add_left 1 l

theorem Succeeds.spelling_height_le {w : Spelling}
    (h : Succeeds ((inner max levels).operation floor) s) (hs : s.tokens = w.tokens ++ rest)
    (hr : s.Room max w.constants) : w.height ≤ levels := by
  obtain ⟨l, rfl, hoperations⟩ := h.level
  cases w with
  | literal neg c =>
    cases neg with
    | false => exact Nat.le_add_left 1 l
    | true =>
      obtain ⟨l', rfl, -⟩ := (hoperations.negated hs).level
      exact Nat.le_add_left 2 l'
  | operation neg left op right =>
    generalize hts : signed neg [left.token, .mark (Spelling.markOf op), right.token] = ts
    have hs₀ : s.tokens = .mark .openParen :: (ts ++ .mark .closeParen :: rest) := by
      rw [hs, Spelling.tokens, Chunk.parenthesised, hts]
      simp
    obtain ⟨l', rfl, hinner⟩ := (hoperations.parenthesised hs₀).level
    have hs₁ : (s.past 1 []).tokens = ts ++ .mark .closeParen :: rest := by
      rw [State.tokens_past, hs₀]
      rfl
    have hleft : s.Room max [left] := State.Room.left hr
    have hlevel := hinner.operation (hts ▸ hs₁) (State.room_past.2 hleft)
    exact Nat.add_le_add_right hlevel 2

theorem Succeeds.atom_height_le {a : Atom} (h : Succeeds ((inner max levels).operation floor) s)
    (hs : s.tokens = a.tokens ++ rest) (hr : s.Room max a.constants) : a.height ≤ levels := by
  cases a with
  | number n =>
    rw [Atom.tokens, ← tokens_spelling] at hs
    exact h.spelling_height_le hs hr
  | _ =>
    obtain ⟨l, rfl, -⟩ := h.level
    exact Nat.le_add_left 1 l

end

/-! ## Terms -/

/-- There are no slots to be looked up. -/
theorem noSlots (s : State) : 0 < 0 → s.isLocal Term.slotTable = true :=
  fun h => absurd h (Nat.lt_irrefl 0)

variable {max levels : Nat} {s : State} {rest : List Token}

mutual

/-- **Where the tokens of a term are parsed, there are as many levels as it is high.** -/
theorem height_le_of_succeeds (trailing : Bool) : (t : Term) → t.Writable 0 →
    ∀ {s : State} {rest : List Token} {max levels floor : Nat},
      Succeeds ((inner max levels).operation floor) s → s.tokens = t.tokens trailing ++ rest →
      s.Room max t.constants → t.height ≤ levels
  | .atom a => fun _ _ _ _ _ _ h hs hr => h.atom_height_le hs hr
  | .slot i => fun hw => absurd (Nat.le_trans hw.1 hw.2) (by decide)
  | .tooDeep => fun hw => hw.elim
  | .table fs => by
    intro hw s rest max levels floor h hs hr
    obtain ⟨l, rfl, hoperations⟩ := h.level
    cases hfs : fs with
    | nil => exact Nat.le_add_left 1 l
    | cons f gs =>
      have hne : fs ≠ [] := hfs ▸ List.cons_ne_nil f gs
      rw [← hfs]
      have hs₁ : (s.past 1 []).tokens =
          Term.fieldsTokens trailing fs ++ .mark .closeBrace :: rest := by
        rw [State.tokens_past, hs, Term.tokens]
        simp
      have hoperand := hoperations.operand (by simp [hs, Term.tokens])
      obtain ⟨⟨e, s'⟩, hrun⟩ := hoperand.congr (operand_of_brace max _ hs)
      obtain ⟨n, hn⟩ := exists_repeats (show roundsWithin (constructorRound max (inner max l)) _ []
        (s.past 1 []) = .ok (e, s') from hrun)
      exact Nat.succ_le_succ
        (fieldsHeight_le_of_repeats trailing fs hne hw hn hs₁ (State.room_past.2 hr))

/-- Where the fields of a table are parsed, there are as many levels as these are high. -/
theorem fieldsHeight_le_of_repeats (trailing : Bool) : (fs : List Field) → fs ≠ [] →
    Term.FieldsWritable 0 fs →
    ∀ {s s' : State} {rest : List Token} {max levels n : Nat} {parts : List Part} {e : Expr},
      Repeats (constructorRound max (inner max levels)) n parts s e s' →
      s.tokens = Term.fieldsTokens trailing fs ++ .mark .closeBrace :: rest →
      s.Room max (Term.fieldsConstants fs) → Term.fieldsHeight fs ≤ levels
  | [] => fun hne => absurd rfl hne
  | f :: fs => by
    rintro - ⟨hf, hfs⟩ s s' rest max levels n parts e h hs hr
    rw [Term.fieldsTokens, List.append_assoc] at hs
    have hclosed := closed_laterTokens trailing fs rest
    have hhead : s.tokens.head? ≠ some (.mark .closeBrace) := hs ▸ head_fieldTokens hf trailing _
    -- whatever the round does, it has parsed the first field
    have hround {x : List Part ⊕ Expr} {s₁ : State}
        (hx : constructorRound max (inner max levels) parts s = .ok (x, s₁)) :
        Term.fieldHeight f ≤ levels ∧ EndsPart parts (Term.fieldPart f)
          (s.past (Term.fieldTokens trailing f).length (Term.fieldConstants f)) s₁ x := by
      rcases constructorRound_eq_ok_iff.1 hx with ⟨hbrace, -⟩ | ⟨-, p, s₂, hpart, hends⟩
      · exact absurd hbrace hhead
      · have hl := fieldHeight_le_of_succeeds trailing f hf ⟨_, hpart⟩ hs hclosed hr.left
        have hfield := run_field 0 trailing f hf hs hclosed (noSlots s) hr.left hl
        cases hfield.symm.trans hpart
        exact ⟨hl, hends⟩
    have hrest := State.tokens_past_of_eq hs (Term.fieldConstants f)
    refine Nat.max_le.2 ?_
    cases fs with
    | nil =>
      refine ⟨?_, Nat.zero_le _⟩
      cases h with
      | stop hx => exact (hround hx).1
      | next hx _ => exact (hround hx).1
    | cons g gs =>
      -- the comma after the field makes the round go on
      have hcomma : (s.past (Term.fieldTokens trailing f).length
          (Term.fieldConstants f)).tokens.head? = some (.mark .comma) := by
        rw [hrest]
        rfl
      cases h with
      | stop hx =>
        obtain ⟨-, -, ⟨-, ⟨⟩⟩ | ⟨hbrace, -⟩⟩ := hround hx
        cases hcomma.symm.trans hbrace
      | next hx hnext =>
        obtain ⟨hl, rfl, -⟩ := hround hx
        have hs₁ : ((s.past (Term.fieldTokens trailing f).length
            (Term.fieldConstants f)).past 1 []).tokens =
              Term.fieldsTokens trailing (g :: gs) ++ .mark .closeBrace :: rest := by
          rw [State.tokens_past, hrest]
          rfl
        exact ⟨hl, fieldsHeight_le_of_repeats trailing (g :: gs) (List.cons_ne_nil g gs) hfs hnext
          hs₁ (State.room_past.2 (State.room_past.2 hr))⟩

/-- Where a field is parsed, there are as many levels as it is high. -/
theorem fieldHeight_le_of_succeeds (trailing : Bool) : (f : Field) → Term.FieldWritable 0 f →
    ∀ {s : State} {rest : List Token} {max levels : Nat},
      Succeeds (part max (inner max levels)) s → s.tokens = Term.fieldTokens trailing f ++ rest →
      Closed rest → s.Room max (Term.fieldConstants f) → Term.fieldHeight f ≤ levels
  | .item v => by
    intro hw s rest max levels h hs _ hr
    rw [Term.fieldTokens] at hs
    have hv : Succeeds (inner max levels).expr s :=
      (h.congr (part_of_starts max _ hs (starts_term hw trailing))).first
    exact height_le_of_succeeds trailing v hw hv hs hr
  | .pair k v => by
    intro hw s rest max levels h hs hclosed hr
    cases hk : k.bareName? with
    | some name =>
      obtain rfl := eq_of_bareName? hk
      rw [Term.fieldTokens, hk] at hs
      have hs₁ : (s.past 2 [.string name]).tokens = v.tokens trailing ++ rest := by
        rw [State.tokens_past, hs]
        rfl
      have hvalue := (h.congr (part_of_named hs hr.left)).first
      have hv := height_le_of_succeeds trailing v hw.2 hvalue hs₁ (State.room_past.2 hr)
      exact Nat.max_le.2 ⟨Nat.le_trans (height_pos v) hv, hv⟩
    | none =>
      rw [Term.fieldTokens, hk] at hs
      have hs₁ : (s.past 1 []).tokens = k.tokens trailing ++
          (.mark .closeBracket :: .mark .equals :: (v.tokens trailing ++ rest)) := by
        rw [State.tokens_past, hs]
        simp
      have hbracketed := h.congr (part_of_bracket max _ hs)
      have hroom : (s.past 1 []).Room max (k.constants ++ v.constants) := State.room_past.2 hr
      have hl := height_le_of_succeeds trailing k hw.1 hbracketed.first hs₁ hroom.left
      have hkey := run_term 0 trailing k hw.1 0 hs₁ (closed_mark rfl _) (noSlots _) hroom.left hl
      have hs₂ := State.tokens_past_of_eq hs₁ k.constants
      have hs₃ : (((s.past 1 []).past (k.tokens trailing).length k.constants).past 1 []).tokens =
          .mark .equals :: (v.tokens trailing ++ rest) := by
        rw [State.tokens_past, hs₂]
        rfl
      have hs₄ : ((((s.past 1 []).past (k.tokens trailing).length k.constants).past 1 []).past 1
          []).tokens = v.tokens trailing ++ rest := by
        rw [State.tokens_past, hs₃]
        rfl
      have hvalue := (((hbracketed.after hkey).after (run_expect hs₂)).after (run_expect hs₃)).first
      exact Nat.max_le.2 ⟨hl, height_le_of_succeeds trailing v hw.2 hvalue hs₄
        (State.room_past.2 (State.room_past.2 (State.room_past.2 hroom)))⟩

end

/-! ## Assignments -/

/-- Where the assignment of a term is parsed, there are as many levels as the term is high. -/
theorem Succeeds.assigned_height_le {k : Nat} {cs : List Constant} {name : String}
    {target : Expr} {value : Term} {trailing : Bool}
    (h : Succeeds (statement max (inner max levels)) s) (hw : value.Writable 0)
    (hname : s.tokens.head? = some (.name name))
    (hsuffixed : suffixed max (inner max levels) s = .ok (target, s.past k cs))
    (htarget : target.isTarget = true)
    (hs : (s.past k cs).tokens = .mark .equals :: (value.tokens trailing ++ rest))
    (hr : s.Room max (cs ++ value.constants)) : value.height ≤ levels := by
  have hassignment := h.after (run_peek s)
  rw [hname] at hassignment
  simp only [← bind_pure_comp] at hassignment
  have hvalue := (hassignment.first.after hsuffixed).after (run_accept hs)
  simp only [if_true, htarget, Bool.not_true, Bool.false_eq_true, if_false] at hvalue
  have hs₁ : ((s.past k cs).past 1 []).tokens = value.tokens trailing ++ rest := by
    rw [State.tokens_past, hs]
    rfl
  exact height_le_of_succeeds trailing value hw hvalue.first hs₁
    (State.room_past.2 (State.room_past.2 hr))

end Chunk.Parse

end LuaGraph
