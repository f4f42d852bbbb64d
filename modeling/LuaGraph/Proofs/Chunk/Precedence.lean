import LuaGraph.Proofs.Chunk.Costs
import LuaGraph.Proofs.Chunk.Rounds

/-!
# Operators

Operands with operators between them are parsed by climbing (`subexpr`): each right operand is an
expression whose operators bind tighter than the one before it. What comes out is the tree that is
got in two passes (`Expr.grouped`): products are formed first, then sums of them, both from the
left. A minus sign belongs to the operand right after it.

* An *atom* is what the rule for operands reads, a *factor* an atom after some minus signs. A
  sequence is a factor and then operators, each with a factor.
* `Parses` says what a rule does under all ceilings that are high enough, so that runs can be put
  together. It is enough that there is one run under some ceilings (`parses_of_run`).
* Literals, names, parentheses, indices and calls are atoms wherever they stand (`IsSuffixed`).

Headline: **`operation_grouped`**.
-/

namespace LuaGraph.Chunk

/-! ## Trees -/

/-- The operator makes a product of its operands, not a sum. -/
def Operator.isProduct : Operator → Bool
  | .mul => true
  | .div => true
  | _ => false

/-- **What makes a product binds tighter than what makes a sum**, and nothing else does. -/
theorem Operator.priority_lt_iff {op op' : Operator} :
    op.priority < op'.priority ↔ op.isProduct = false ∧ op'.isProduct = true := by
  cases op <;> cases op' <;> decide

namespace Expr

/-- Forms the products of a sequence, from the left: the first one, and the others with the
operators before them. -/
def products : Expr → List (Operator × Expr) → Expr × List (Operator × Expr)
  | left, [] => (left, [])
  | left, (op, e) :: rest =>
    if op.isProduct then products (.binary op left e) rest
    else (left, (op, (products e rest).1) :: (products e rest).2)

/-- **The tree of a sequence**: products are formed first, then sums of them, both from the left. -/
def grouped (first : Expr) (rest : List (Operator × Expr)) : Expr :=
  (products first rest).2.foldl (fun sum x => .binary x.1 sum x.2) (products first rest).1

end Expr

namespace Parse

/-! ## Sequences -/

/-- **What a parser that is given ceilings does under all of them that are high enough.** -/
def Parses {α : Type} (p : Limits → Parse α) (s : State) (a : α) (s' : State) : Prop :=
  ∃ m d, ∀ l : Limits, m ≤ l.maxConstants → d ≤ l.maxDepth → p l s = .ok (a, s')

/-- **An atom stands between two states**: the rule for operands reads it under some ceilings. -/
def IsAtom (s : State) (e : Expr) (s' : State) : Prop :=
  ∃ l : Limits, operand l.maxConstants (inner l.maxConstants l.maxDepth) s = .ok (e, s')

/-- **A factor**: an atom after some minus signs, each of which belongs to what is after it. -/
inductive IsFactor : State → Expr → State → Prop
  | atom {s e s'} : IsAtom s e s' → IsFactor s e s'
  | minus {s ts e s'} : s.tokens = .mark .minus :: ts → IsFactor (s.past 1 []) e s' →
      IsFactor s (.negate e) s'

/-- **The rest of a sequence**: operators, each with a factor after it. -/
inductive IsRest : State → List (Operator × Expr) → State → Prop
  | nil {s} : IsRest s [] s
  | cons {s op ts e s' rest s''} : s.tokens = .mark (Spelling.markOf op) :: ts →
      IsFactor (s.past 1 []) e s' → IsRest s' rest s'' → IsRest s ((op, e) :: rest) s''

/-- **An expression stands between two states**, whose operators bind tighter than the floor: the
rule for expressions reads it under all ceilings that are high enough. -/
def IsOperation (floor : Nat) (s : State) (e : Expr) (s' : State) : Prop :=
  Parses (fun l => (inner l.maxConstants l.maxDepth).operation floor) s e s'

/-- The operators between two states that bind tighter than the floor, with their right operands,
make an expression of a left operand. -/
def Climbs (floor : Nat) (left : Expr) (s : State) (e : Expr) (s' : State) : Prop :=
  Parses (fun l => rounds (operation (inner l.maxConstants l.maxDepth) floor) left) s e s'

/-- The constants that a name counts as: none if it is a local variable or the environment. -/
def nameConstants (s : State) (name : String) : List Constant :=
  if name = "_ENV" ∨ s.isLocal name = true then [] else [.string name]

/-- **A name or an expression in parentheses, with indices and calls after it.** -/
inductive IsSuffixed : State → Expr → State → Prop
  | name {s name ts} : s.tokens = .name name :: ts →
      IsSuffixed s (.name name) (s.past 1 (nameConstants s name))
  | parenthesis {s ts e s' ts'} : s.tokens = .mark .openParen :: ts →
      IsOperation 0 (s.past 1 []) e s' → s'.tokens = .mark .closeParen :: ts' →
      IsSuffixed s e (s'.past 1 [])
  | field {s e s' name ts} : IsSuffixed s e s' → s'.tokens = .mark .dot :: .name name :: ts →
      IsSuffixed s (.index e (.string name)) (s'.past 2 [.string name])
  | index {s e s' ts k s'' ts'} : IsSuffixed s e s' → s'.tokens = .mark .openBracket :: ts →
      IsOperation 0 (s'.past 1 []) k s'' → s''.tokens = .mark .closeBracket :: ts' →
      IsSuffixed s (.index e k) (s''.past 1 [])
  | call {s e s' ts args s''} : IsSuffixed s e s' → s'.tokens = .mark .openParen :: ts →
      Parses (fun l => arguments (inner l.maxConstants l.maxDepth)) (s'.past 1 []) args s'' →
      IsSuffixed s (.call e args) s''

variable {α β : Type} {s s' s'' : State} {e : Expr} {op : Operator} {ts : List Token}

/-! ## Under high enough ceilings -/

/-- Two runs are made under the same ceilings. -/
theorem Parses.both {p : Limits → Parse α} {q : Limits → Parse β} {t t' : State} {a : α} {b : β}
    (h : Parses p s a s') (h' : Parses q t b t') :
    ∃ m d, ∀ l : Limits, m ≤ l.maxConstants → d ≤ l.maxDepth →
      p l s = .ok (a, s') ∧ q l t = .ok (b, t') := by
  obtain ⟨m, d, hrun⟩ := h
  obtain ⟨m', d', hrun'⟩ := h'
  refine ⟨max m m', max d d', fun l hm hd => ⟨hrun l ?_ ?_, hrun' l ?_ ?_⟩⟩ <;> omega

theorem Parses.bind {p : Limits → Parse α} {f : α → Limits → Parse β} {a : α} {b : β}
    (h : Parses p s a s') (h' : Parses (f a) s' b s'') :
    Parses (fun l => p l >>= fun a => f a l) s b s'' := by
  obtain ⟨m, d, hrun⟩ := h.both h'
  exact ⟨m, d, fun l hm hd => bind_eq_ok.2 ⟨a, s', hrun l hm hd⟩⟩

/-- A run under some ceilings is made under all that are high enough. -/
theorem parses_of_run {p : Limits → Parse α} {a : α}
    (hp : ∀ l l' : Limits, l.maxConstants ≤ l'.maxConstants → l.maxDepth ≤ l'.maxDepth →
      Refines (p l) (p l')) {l : Limits} (h : p l s = .ok (a, s')) : Parses p s a s' :=
  ⟨l.maxConstants, l.maxDepth, fun l' hm hd => hp l l' hm hd s _ h⟩

/-- An expression has a level more than what is in it. -/
theorem Parses.deeper {floor : Nat}
    (h : Parses (fun l => operations l.maxConstants (inner l.maxConstants l.maxDepth) floor)
      s e s') : IsOperation floor s e s' := by
  obtain ⟨m, d, hrun⟩ := h
  refine ⟨m, d + 1, fun l hm hd => ?_⟩
  obtain ⟨k, hk⟩ : ∃ k, l.maxDepth = k + 1 := ⟨l.maxDepth - 1, by omega⟩
  dsimp only
  rw [hk, operation_succ]
  exact hrun ⟨l.maxConstants, k⟩ hm (by dsimp only; omega)

/-! ## Factors -/

theorem IsAtom.parses (h : IsAtom s e s') :
    Parses (fun l => operand l.maxConstants (inner l.maxConstants l.maxDepth)) s e s' := by
  obtain ⟨l, hrun⟩ := h
  exact parses_of_run (fun _ _ hm hd => Law.operand (deeper_higher hm hd)) hrun

/-- No atom starts with a minus sign. -/
theorem IsAtom.head_ne (h : IsAtom s e s') : s.tokens.head? ≠ some (.mark .minus) := by
  obtain ⟨l, hrun⟩ := h
  intro hhead
  have hpeek := run_peek s
  rw [hhead] at hpeek
  have hfault : suffixed l.maxConstants (inner l.maxConstants l.maxDepth) s = .ok (e, s') := by
    rw [← hrun]
    unfold operand
    rw [run_bind hpeek]
  unfold suffixed primary at hfault
  rw [bind_assoc, run_bind hpeek] at hfault
  cases hfault

/-- The first factor of an expression. -/
def lead (max : Nat) (inner : Inner) : Parse Expr := do
  if ← accept (.mark .minus) then Expr.negate <$> inner.operation signPriority
  else operand max inner

/-- An expression is its first factor and what operators do with it. -/
theorem operations_eq (max : Nat) (inner : Inner) (floor : Nat) :
    operations max inner floor = lead max inner >>= rounds (operation inner floor) := by
  unfold operations lead
  rw [bind_assoc]
  refine congrArg (accept (.mark .minus) >>= ·) (funext fun minus => ?_)
  split <;> rfl

/-- No operator binds as tightly as a minus sign. -/
theorem stops_sign (ts : List Token) : Stops signPriority ts := by
  intro op _
  cases op <;> decide

/-- Operators that do not bind tighter than the floor end an expression. -/
theorem climbs_stop {floor : Nat} (hstop : Stops floor s.tokens) (left : Expr) :
    Climbs floor left s left s :=
  ⟨0, 0, fun _ _ _ => run_rounds (.stop (run_operation_of_stops hstop)) (Nat.zero_le _)⟩

/-- What operators do with a first factor makes an expression. -/
theorem Parses.operation {floor : Nat} {a : Expr}
    (h : Parses (fun l => lead l.maxConstants (inner l.maxConstants l.maxDepth)) s e s')
    (hrest : Climbs floor e s' a s'') : IsOperation floor s a s'' := by
  refine Parses.deeper ?_
  simp only [operations_eq]
  exact h.bind hrest

/-- **A factor is the first of an expression.** -/
theorem IsFactor.parses (h : IsFactor s e s') :
    Parses (fun l => lead l.maxConstants (inner l.maxConstants l.maxDepth)) s e s' := by
  induction h with
  | atom h =>
    obtain ⟨m, d, hrun⟩ := h.parses
    refine ⟨m, d, fun l hm hd => ?_⟩
    dsimp only
    unfold lead
    rw [run_bind (run_accept_of_ne h.head_ne)]
    exact hrun l hm hd
  | minus hs _ ih =>
    -- The operand of the sign is an expression that ends right after its first factor.
    obtain ⟨m, d, hrun⟩ := ih.operation (climbs_stop (stops_sign _) _)
    refine ⟨m, d, fun l hm hd => ?_⟩
    dsimp only
    unfold lead
    rw [run_bind (run_accept hs)]
    exact run_map (hrun l hm hd)

/-! ## Rounds -/

/-- A round for an operator that binds tighter than the floor. -/
theorem climbs_round {floor : Nat} {left right a : Expr}
    (hs : s.tokens = .mark (Spelling.markOf op) :: ts) (hfloor : floor < op.priority)
    (hright : IsOperation op.priority (s.past 1 []) right s')
    (hrest : Climbs floor (.binary op left right) s' a s'') : Climbs floor left s a s'' := by
  obtain ⟨m, d, hrun⟩ := hright.both hrest
  refine ⟨m, d, fun l hm hd => ?_⟩
  obtain ⟨hright, hrest⟩ := hrun l hm hd
  have hprogress := progresses_operation (deeper_advancing l.maxConstants l.maxDepth) floor
  have hround : operation (inner l.maxConstants l.maxDepth) floor left s =
      .ok (.inl (.binary op left right), s') := by
    unfold operation
    rw [run_bind (run_peek s), hs, List.head?_cons, operator?_markOf]
    simp only [if_neg (Nat.not_le.2 hfloor)]
    rw [run_bind (run_advance s), run_bind hright]
    rfl
  obtain ⟨n, hn⟩ := (rounds_eq_ok_iff hprogress).1 hrest
  exact (rounds_eq_ok_iff hprogress).2 ⟨n + 1, .next hround hn⟩

/-- An operator does not bind tighter than the floor. -/
theorem stops_operator {floor : Nat} (hs : s.tokens = .mark (Spelling.markOf op) :: ts)
    (hfloor : op.priority ≤ floor) : Stops floor s.tokens := by
  intro op' hop
  rw [hs, List.head?_cons, operator?_markOf] at hop
  cases hop
  exact hfloor

/-- No operator binds tighter than one that makes a product. -/
theorem IsRest.stops_product {rest : List (Operator × Expr)} (h : IsRest s rest s')
    (hclosed : Closed s'.tokens) (hop : op.isProduct = true) : Stops op.priority s.tokens := by
  cases h with
  | nil => exact hclosed.stops _
  | cons hs _ _ =>
    refine stops_operator hs (Nat.not_lt.1 fun hlt => ?_)
    simp [Operator.priority_lt_iff, hop] at hlt

/-- **The right operand of a sum is a product**: the rounds for operators that bind tighter than a
sum form the first product, and what they leave has the other ones. -/
theorem IsRest.products {rest : List (Operator × Expr)} (h : IsRest s rest s')
    (hclosed : Closed s'.tokens) (hop : op.isProduct = false) (left : Expr) :
    ∃ t others, IsRest t others s' ∧ others.length ≤ rest.length ∧
      (∀ first, Expr.products first others = (first, (Expr.products left rest).2)) ∧
      Climbs op.priority left s (Expr.products left rest).1 t := by
  induction h generalizing left with
  | nil => exact ⟨_, [], .nil, Nat.le_refl _, fun _ => rfl, climbs_stop (hclosed.stops _) left⟩
  | @cons s op' ts e s₁ rest s' hs hfactor hrest ih =>
    by_cases hop' : op'.isProduct = true
    · obtain ⟨t, others, hothers, hle, hsums, hparses⟩ := ih hclosed (.binary op' left e)
      have hfloor : op.priority < op'.priority := Operator.priority_lt_iff.2 ⟨hop, hop'⟩
      have hright := hfactor.parses.operation
        (climbs_stop (hrest.stops_product hclosed hop') e)
      rw [Expr.products, if_pos hop']
      exact ⟨t, others, hothers, Nat.le_succ_of_le hle, hsums,
        climbs_round hs hfloor hright hparses⟩
    · refine ⟨s, (op', e) :: rest, .cons hs hfactor hrest, Nat.le_refl _, fun first => ?_, ?_⟩
      · rw [Expr.products, Expr.products, if_neg hop', if_neg hop']
      · rw [Expr.products, if_neg hop']
        refine climbs_stop (stops_operator hs (Nat.not_lt.1 fun hlt => hop' ?_)) left
        exact (Operator.priority_lt_iff.1 hlt).2

/-- **The rounds for all operators group the rest of a sequence.** -/
theorem IsRest.grouped {rest : List (Operator × Expr)} (h : IsRest s rest s')
    (hclosed : Closed s'.tokens) (left : Expr) : Climbs 0 left s (Expr.grouped left rest) s' := by
  generalize hn : rest.length = n
  induction n using Nat.strong_induction_on generalizing s left rest with
  | _ n ih =>
    cases h with
    | nil => exact climbs_stop (hclosed.stops 0) left
    | @cons _ op ts e s₁ rest _ hs hfactor hrest =>
      have hfloor : 0 < op.priority := by cases op <;> decide
      by_cases hop : op.isProduct = true
      · have hright := hfactor.parses.operation (climbs_stop (hrest.stops_product hclosed hop) e)
        have hgrouped : Expr.grouped left ((op, e) :: rest) =
            Expr.grouped (.binary op left e) rest := by
          simp only [Expr.grouped, Expr.products, if_pos hop]
        rw [hgrouped]
        exact climbs_round hs hfloor hright
          (ih _ (by rw [← hn]; exact Nat.lt_succ_self _) hrest _ rfl)
      · obtain ⟨t, others, hothers, hle, hsums, hparses⟩ :=
          hrest.products hclosed (Bool.eq_false_iff.2 hop) e
        have hgrouped : Expr.grouped left ((op, e) :: rest) =
            Expr.grouped (.binary op left (Expr.products e rest).1) others := by
          simp only [Expr.grouped, Expr.products, if_neg hop, hsums, List.foldl_cons]
        rw [hgrouped]
        exact climbs_round hs hfloor (hfactor.parses.operation hparses)
          (ih _ (by rw [← hn]; exact Nat.lt_succ_of_le hle) hothers _ rfl)

/-- **A sequence is an expression.** -/
theorem IsFactor.sequence {first : Expr} {rest : List (Operator × Expr)} (h : IsFactor s first s')
    (hrest : IsRest s' rest s'') (hclosed : Closed s''.tokens) :
    IsOperation 0 s (.grouped first rest) s'' := h.parses.operation (hrest.grouped hclosed first)

/-! ## Atoms -/

/-- A literal is an atom. -/
theorem isAtom_literal {c : Constant} (hs : s.tokens = c.token :: ts) :
    IsAtom s c.expr (s.past 1 [c]) :=
  ⟨⟨(s.past 0 [c]).frame.constants.size, 0⟩, run_operand_token _ hs (Nat.le_refl _)⟩

/-- A key word that stands for a value is an atom. -/
theorem isAtom_keyword {name : String} (hs : s.tokens = .keyword name :: ts)
    (he : (name, e) ∈ keywordValues) : IsAtom s e (s.past 1 []) :=
  ⟨{}, run_operand_keyword _ _ hs he⟩

/-- What starts with a name or a parenthesis. -/
theorem IsSuffixed.head (h : IsSuffixed s e s') :
    (∃ name, s.tokens.head? = some (.name name)) ∨ s.tokens.head? = some (.mark .openParen) := by
  induction h with
  | name hs => exact .inl ⟨_, by rw [hs, List.head?_cons]⟩
  | parenthesis hs _ _ => exact .inr (by rw [hs, List.head?_cons])
  | field _ _ ih => exact ih
  | index _ _ _ _ ih => exact ih
  | call _ _ _ ih => exact ih

theorem parses_primary_name {x : String} (hs : s.tokens = .name x :: ts) :
    Parses (fun l => primary l.maxConstants (inner l.maxConstants l.maxDepth)) s (.name x)
      (s.past 1 (nameConstants s x)) := by
  refine ⟨(s.past 0 [.string x]).frame.constants.size, 0, fun l hm _ => ?_⟩
  unfold nameConstants
  by_cases henv : x = "_ENV"
  · subst henv
    rw [if_pos (.inl rfl)]
    exact run_primary_environment hs
  by_cases hlocal : s.isLocal x = true
  · rw [if_pos (.inr hlocal)]
    exact run_primary_local hs hlocal
  · rw [if_neg (not_or.2 ⟨henv, hlocal⟩)]
    exact run_primary_global hs (Bool.eq_false_iff.2 hlocal) henv hm

/-- Under high enough ceilings a name or a parenthesis is read, and then suffixes one after the
other. -/
def ReadsSuffixes (s : State) (e : Expr) (s' : State) : Prop :=
  ∃ m d, ∀ l : Limits, m ≤ l.maxConstants → d ≤ l.maxDepth → ∃ first s₀ n,
    primary l.maxConstants (inner l.maxConstants l.maxDepth) s = .ok (first, s₀) ∧
    Chain (suffix l.maxConstants (inner l.maxConstants l.maxDepth)) n first s₀ e s'

theorem readsSuffixes_primary
    (h : Parses (fun l => primary l.maxConstants (inner l.maxConstants l.maxDepth)) s e s') :
    ReadsSuffixes s e s' := by
  obtain ⟨m, d, hrun⟩ := h
  exact ⟨m, d, fun l hm hd => ⟨e, s', 0, hrun l hm hd, .nil⟩⟩

/-- One suffix more is read. -/
theorem ReadsSuffixes.next {e' : Expr} (h : ReadsSuffixes s e s')
    (hsuffix : Parses (fun l => suffix l.maxConstants (inner l.maxConstants l.maxDepth) e) s'
      (.inl e') s'') : ReadsSuffixes s e' s'' := by
  obtain ⟨m, d, hrun⟩ := h
  obtain ⟨m', d', hnext⟩ := hsuffix
  refine ⟨max m m', max d d', fun l hm hd => ?_⟩
  obtain ⟨first, s₀, n, hprimary, hchain⟩ := hrun l (by omega) (by omega)
  have hround := hnext l (by omega) (by omega)
  exact ⟨first, s₀, n + 1, hprimary, hchain.append (.next hround .nil)⟩

theorem IsSuffixed.reads (h : IsSuffixed s e s') : ReadsSuffixes s e s' := by
  induction h with
  | name hs => exact readsSuffixes_primary (parses_primary_name hs)
  | parenthesis hs he hs' =>
    obtain ⟨m, d, hrun⟩ := he
    exact readsSuffixes_primary
      ⟨m, d, fun l hm hd => run_primary_parenthesised _ hs (hrun l hm hd) hs'⟩
  | field _ hs ih => exact ih.next ⟨_, 0, fun l hm _ => run_suffix_dot hs hm⟩
  | index _ hs hk hs' ih =>
    obtain ⟨m, d, hrun⟩ := hk
    exact ih.next ⟨m, d, fun l hm hd => run_suffix_bracket _ hs (hrun l hm hd) hs'⟩
  | call _ hs hargs ih =>
    obtain ⟨m, d, hrun⟩ := hargs
    exact ih.next ⟨m, d, fun l hm hd => run_suffix_arguments _ hs (hrun l hm hd)⟩

/-- **Names, parentheses, indices and calls are atoms**, in front of what is no suffix of them. -/
theorem IsSuffixed.isAtom (h : IsSuffixed s e s') (hrest : Unsuffixed s'.tokens) :
    IsAtom s e s' := by
  obtain ⟨m, d, hrun⟩ := h.reads
  obtain ⟨first, s₀, n, hprimary, hchain⟩ := hrun ⟨m, d⟩ (Nat.le_refl m) (Nat.le_refl d)
  refine ⟨⟨m, d⟩, ?_⟩
  rw [run_operand_suffixed h.head]
  unfold suffixed
  rw [run_bind hprimary]
  exact (rounds_eq_ok_iff (progresses_suffix (deeper_advancing m d))).2
    ⟨n, hchain.repeats (run_suffix_of_unsuffixed hrest e)⟩

/-- **A sequence in parentheses is an atom.** -/
theorem isAtom_parenthesised {us : List Token} {t : State} {first : Expr}
    {rest : List (Operator × Expr)} (hs : s.tokens = .mark .openParen :: ts)
    (hfirst : IsFactor (s.past 1 []) first t) (hseq : IsRest t rest s')
    (hs' : s'.tokens = .mark .closeParen :: us) (hrest : Unsuffixed us) :
    IsAtom s (.grouped first rest) (s'.past 1 []) := by
  have hexpr := hfirst.sequence hseq (hs' ▸ closed_mark rfl us)
  refine (IsSuffixed.parenthesis hs hexpr hs').isAtom ?_
  rw [State.tokens_past, hs']
  exact hrest

/-! ## Sequences are grouped -/

/-- **A sequence is read exactly to its end, and grouped**: products before sums, both from the
left, with each minus sign at what is after it. This is so under the ceilings that allow its cost,
and under all others a ceiling is exceeded. -/
theorem operation_grouped {first : Expr} {rest : List (Operator × Expr)}
    (hfirst : IsFactor s first s') (hrest : IsRest s' rest s'') (hclosed : Closed s''.tokens) :
    ∃ c : Cost, ∀ l : Limits,
      (c.Within l → (inner l.maxConstants l.maxDepth).operation 0 s =
        .ok (.grouped first rest, s'')) ∧
      (¬c.Within l → ∃ e, (inner l.maxConstants l.maxDepth).operation 0 s = .error e ∧
        ExceedsCeiling e.2) := by
  obtain ⟨m, d, hparses⟩ := hfirst.sequence hrest hclosed
  have hrun := hparses ⟨m, d⟩ (Nat.le_refl m) (Nat.le_refl d)
  obtain ⟨c, hspends⟩ := (deeper_metered d).operation 0 ⟨m, d⟩ rfl s _ _ hrun
  refine ⟨c, fun l => ⟨fun hc => (hspends.run_iff l).2 ⟨rfl, hc⟩, fun hc => ?_⟩⟩
  have hbounds := (deeper_bounding (fun b => cond b l.maxConstants m)
    fun b => cond b l.maxDepth d).operation 0 s _ hrun
  exact hbounds.resolve_left fun hok => hc ((hspends.run_iff l).1 hok).2

/-- The state in front of the tokens of `2 * x.k - - y / (z + nil)`. -/
def mixed : State where
  lexemes := [.integer 2, .mark .star, .name "x", .mark .dot, .name "k", .mark .minus,
    .mark .minus, .name "y", .mark .slash, .mark .openParen, .name "z", .mark .plus,
    .keyword "nil", .mark .closeParen].map fun t => ⟨t, {}⟩
  stop := {}

theorem operation_grouped_mixed :
    ∃ s' s'', (IsFactor mixed (.number (.integer 2)) s' ∧
      IsRest s' [(.mul, .index (.name "x") (.string "k")), (.sub, .negate (.name "y")),
        (.div, .binary .add (.name "z") .nil)] s'' ∧ Closed s''.tokens) ∧
      ∃ c : Cost, ∀ l : Limits, c.Within l →
        (inner l.maxConstants l.maxDepth).operation 0 mixed =
          .ok (.binary .sub
            (.binary .mul (.number (.integer 2)) (.index (.name "x") (.string "k")))
            (.binary .div (.negate (.name "y")) (.binary .add (.name "z") .nil)), s'') := by
  have hfirst : IsFactor mixed (.number (.integer 2)) (mixed.past 1 [.integer 2]) :=
    .atom (isAtom_literal (c := .integer 2) rfl)
  have hx : IsFactor (mixed.past 2 [.integer 2]) (.index (.name "x") (.string "k"))
      (mixed.past 5 [.integer 2, .string "x", .string "k"]) :=
    .atom (IsSuffixed.isAtom (.field (.name rfl) rfl) (unsuffixed_mark rfl _))
  have hy : IsFactor (mixed.past 6 [.integer 2, .string "x", .string "k"]) (.negate (.name "y"))
      (mixed.past 8 [.integer 2, .string "x", .string "k", .string "y"]) :=
    .minus rfl (.atom (IsSuffixed.isAtom (.name rfl) (unsuffixed_mark rfl _)))
  have hz : IsFactor (mixed.past 10 [.integer 2, .string "x", .string "k", .string "y"])
      (.name "z")
      (mixed.past 11 [.integer 2, .string "x", .string "k", .string "y", .string "z"]) :=
    .atom (IsSuffixed.isAtom (.name rfl) (unsuffixed_mark rfl _))
  have hnil : IsRest
      (mixed.past 11 [.integer 2, .string "x", .string "k", .string "y", .string "z"])
      [(.add, .nil)]
      (mixed.past 13 [.integer 2, .string "x", .string "k", .string "y", .string "z"]) :=
    .cons rfl (.atom (isAtom_keyword rfl (List.mem_cons_self ..))) .nil
  have hend : Closed [] := nofun
  have hsum : IsAtom (mixed.past 9 [.integer 2, .string "x", .string "k", .string "y"])
      (.binary .add (.name "z") .nil)
      (mixed.past 14 [.integer 2, .string "x", .string "k", .string "y", .string "z"]) :=
    isAtom_parenthesised rfl hz hnil rfl hend.unsuffixed
  have hrest : IsRest (mixed.past 1 [.integer 2])
      [(.mul, .index (.name "x") (.string "k")), (.sub, .negate (.name "y")),
        (.div, .binary .add (.name "z") .nil)]
      (mixed.past 14 [.integer 2, .string "x", .string "k", .string "y", .string "z"]) :=
    .cons rfl hx (.cons rfl hy (.cons rfl (.atom hsum) .nil))
  obtain ⟨c, hc⟩ := operation_grouped hfirst hrest hend
  exact ⟨_, _, ⟨hfirst, hrest, hend⟩, c, fun l hl => (hc l).1 hl⟩

end Parse

end LuaGraph.Chunk
