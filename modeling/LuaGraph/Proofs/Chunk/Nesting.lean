import LuaGraph.Proofs.Chunk.Rounds

/-!
# How deep constructors are nested

Every expression takes a level of its own, so however a text is written, in the tree that it is
parsed to no more table constructors stand inside one another than there are levels.

A parser *gives* results with a property if all the results that it has are of this kind. What the
rules of the grammar give one level deeper decides what they give themselves.

Result: `nesting_le_of_parse`.
-/

namespace LuaGraph.Chunk

/-! ## Nesting -/

namespace Expr

mutual

/-- How many table constructors stand inside one another in an expression. -/
def nesting : Expr → Nat
  | index object key => max (nesting object) (nesting key)
  | call callee args => max (nesting callee) (argsNesting args)
  | function body => bodyNesting body
  | table parts => partsNesting parts + 1
  | negate operand => nesting operand
  | binary _ left right => max (nesting left) (nesting right)
  | _ => 0

/-- How many table constructors stand inside one another in some arguments. -/
def argsNesting : List Expr → Nat
  | [] => 0
  | e :: es => max (nesting e) (argsNesting es)

/-- How many table constructors stand inside one another in the parts of one. -/
def partsNesting : List Part → Nat
  | [] => 0
  | p :: ps => max (partNesting p) (partsNesting ps)

/-- How many table constructors stand inside one another in a part of one. -/
def partNesting : Part → Nat
  | .item value => nesting value
  | .pair key value => max (nesting key) (nesting value)

/-- How many table constructors stand inside one another in some statements. -/
def bodyNesting : List Stat → Nat
  | [] => 0
  | s :: ss => max (statNesting s) (bodyNesting ss)

/-- How many table constructors stand inside one another in a statement. -/
def statNesting : Stat → Nat
  | .declare _ value => nesting value
  | .assign target value => max (nesting target) (nesting value)
  | .loop _ start limit step body =>
    max (max (nesting start) (nesting limit)) (max (nesting step) (bodyNesting body))
  | .block body => bodyNesting body
  | .call callee => nesting callee

end

variable {n : Nat}

theorem argsNesting_le_iff {es : List Expr} : argsNesting es ≤ n ↔ ∀ e ∈ es, e.nesting ≤ n := by
  induction es with
  | nil => simp [argsNesting]
  | cons e es ih => rw [argsNesting, Nat.max_le, ih, List.forall_mem_cons]

theorem partsNesting_le_iff {ps : List Part} :
    partsNesting ps ≤ n ↔ ∀ p ∈ ps, partNesting p ≤ n := by
  induction ps with
  | nil => simp [partsNesting]
  | cons p ps ih => rw [partsNesting, Nat.max_le, ih, List.forall_mem_cons]

theorem bodyNesting_le_iff {ss : List Stat} :
    bodyNesting ss ≤ n ↔ ∀ s ∈ ss, statNesting s ≤ n := by
  induction ss with
  | nil => simp [bodyNesting]
  | cons s ss ih => rw [bodyNesting, Nat.max_le, ih, List.forall_mem_cons]

end Expr

open Chunk.Expr

namespace Parse

/-! ## What parsers give -/

/-- The results of the parser have the property. -/
def Gives {α : Type} (P : α → Prop) (p : Parse α) : Prop := ∀ s a s', p s = .ok (a, s') → P a

namespace Gives

variable {α β : Type} {P : β → Prop} {Q : α → Prop} {p : Parse α} {f : α → Parse β}

theorem pure {b : β} (h : P b) : Gives P (Pure.pure b : Parse β) := by
  rintro s _ s' ⟨⟩
  exact h

theorem fault (e : GrammarFault) : Gives P (Parse.fault e : Parse β) := by
  rintro s b s' ⟨⟩

theorem bind (hp : Gives Q p) (hf : ∀ a, Q a → Gives P (f a)) : Gives P (p >>= f) := by
  intro s b s'' hrun
  obtain ⟨a, s', hp', hf'⟩ := bind_eq_ok.1 hrun
  exact hf a (hp s a s' hp') s' b s'' hf'

/-- Nothing need be known of what comes first. -/
theorem after (hf : ∀ a, Gives P (f a)) : Gives P (p >>= f) :=
  bind (Q := fun _ => True) (fun _ _ _ _ => trivial) fun a _ => hf a

theorem faultNear (e : String → GrammarFault) : Gives P (Parse.faultNear e : Parse β) :=
  after fun _ => fault _

theorem map {g : α → β} (hp : Gives Q p) (hg : ∀ a, Q a → P (g a)) : Gives P (g <$> p) := by
  rw [← bind_pure_comp]
  exact hp.bind fun a ha => pure (hg a ha)

/-- A repetition keeps to what its rounds give. -/
theorem rounds {f : α → Parse (α ⊕ β)} {a : α} (hf : ∀ a, Q a → Gives (Sum.elim Q P) (f a))
    (ha : Q a) : Gives P (Parse.rounds f a) := by
  intro s b s' hrun
  obtain ⟨n, hn⟩ := exists_repeats (show roundsWithin f s.lexemes a s = .ok (b, s') from hrun)
  clear hrun
  induction hn with
  | stop hround => exact hf _ ha _ _ _ hround
  | next hround _ ih => exact ih (hf _ ha _ _ _ hround)

end Gives

/-! ## Rules -/

/-- One level deeper, constructors are nested no deeper than this. -/
structure Nests (n : Nat) (i : Inner) : Prop where
  operation : ∀ floor, Gives (·.nesting ≤ n) (i.operation floor)
  block : Gives (bodyNesting · ≤ n) i.block

variable {n max : Nat} {i : Inner} (h : Nests n i)
include h

theorem Nests.expr : Gives (·.nesting ≤ n) i.expr := h.operation 0

theorem gives_arguments : Gives (argsNesting · ≤ n) (arguments i) := by
  refine .after fun closed => ?_
  split
  · exact .pure (Nat.zero_le n)
  · refine h.expr.bind fun first hfirst => Gives.rounds (Q := fun es => ∀ e ∈ es, e.nesting ≤ n)
      (fun es hes => .after fun comma => ?_) (by simpa using hfirst)
    split
    · exact h.expr.bind fun e he => .pure (List.forall_mem_cons.2 ⟨he, hes⟩)
    · refine .after fun _ => .pure (argsNesting_le_iff.2 ?_)
      simpa using hes

theorem gives_primary : Gives (·.nesting ≤ n) (primary max i) := by
  refine .after fun token => ?_
  split
  · refine .after fun _ => .after fun s => ?_
    split
    · exact .after fun _ => .pure (Nat.zero_le n)
    · exact .pure (Nat.zero_le n)
  · exact .after fun _ => h.expr.bind fun e he => .after fun _ => .pure he
  · exact .faultNear _

theorem gives_suffix (e : Expr) (he : e.nesting ≤ n) :
    Gives (Sum.elim (·.nesting ≤ n) (·.nesting ≤ n)) (suffix max i e) := by
  refine .after fun token => ?_
  split
  · exact .after fun _ => .after fun _ => .after fun _ => .pure (Nat.max_le.2 ⟨he, Nat.zero_le n⟩)
  · exact .after fun _ => h.expr.bind fun k hk => .after fun _ => .pure (Nat.max_le.2 ⟨he, hk⟩)
  · exact .after fun _ => (gives_arguments h).bind fun es hes => .pure (Nat.max_le.2 ⟨he, hes⟩)
  · exact .pure he

theorem gives_suffixed : Gives (·.nesting ≤ n) (suffixed max i) :=
  (gives_primary h).bind fun _ he => .rounds (gives_suffix h) he

theorem gives_part : Gives (partNesting · ≤ n) (part max i) := by
  have hitem : Gives (partNesting · ≤ n) (do return Part.item (← i.expr)) :=
    h.expr.bind fun _ he => .pure he
  refine .after fun second => .after fun token => ?_
  split
  · split
    · exact .after fun _ => .after fun _ => .after fun _ => h.expr.bind fun e he =>
        .pure (Nat.max_le.2 ⟨Nat.zero_le n, he⟩)
    · exact hitem
  · exact .after fun _ => h.expr.bind fun k hk => .after fun _ => .after fun _ =>
      h.expr.bind fun e he => .pure (Nat.max_le.2 ⟨hk, he⟩)
  · exact hitem

/-- A constructor is nested one deeper than what is in it. -/
theorem gives_constructor : Gives (·.nesting ≤ n + 1) (constructor max i) := by
  have htable {ps : List Part} (hps : ∀ p ∈ ps, partNesting p ≤ n) :
      (Expr.table ps.reverse).nesting ≤ n + 1 :=
    Nat.succ_le_succ (partsNesting_le_iff.2 (by simpa using hps))
  refine Gives.rounds (Q := fun ps => ∀ p ∈ ps, partNesting p ≤ n)
    (fun ps hps => .after fun closed => ?_) (by simp)
  split
  · exact .pure (htable hps)
  · refine (gives_part h).bind fun p hp => .after fun separated => ?_
    split
    · exact .pure (List.forall_mem_cons.2 ⟨hp, hps⟩)
    · exact .after fun _ => .pure (htable (List.forall_mem_cons.2 ⟨hp, hps⟩))

theorem gives_function : Gives (·.nesting ≤ n) (function i) := by
  refine .after fun _ => .after fun closed => ?_
  have hbody : Gives (·.nesting ≤ n) (do
      openFunction
      let body ← i.block
      closeFunction
      expect (.keyword "end")
      return Expr.function body) :=
    .after fun _ => h.block.bind fun body hbody => .after fun _ => .after fun _ => .pure hbody
  split
  · exact .after fun _ => hbody
  · exact hbody

theorem gives_operand : Gives (·.nesting ≤ n + 1) (operand max i) := by
  have hle {e : Expr} (he : e.nesting ≤ n) : e.nesting ≤ n + 1 := Nat.le_succ_of_le he
  have hleaf {e : Expr} (he : e.nesting = 0) : e.nesting ≤ n + 1 := he ▸ Nat.zero_le _
  have hsuffixed : Gives (·.nesting ≤ n + 1) (suffixed max i) :=
    fun s e s' hrun => hle (gives_suffixed h s e s' hrun)
  have hfunction : Gives (·.nesting ≤ n + 1) (function i) :=
    fun s e s' hrun => hle (gives_function h s e s' hrun)
  unfold operand
  refine .after fun token => ?_
  cases token with
  | none => exact hsuffixed
  | some token =>
    cases token with
    | integer k => exact .after fun _ => .after fun _ => .pure (hleaf rfl)
    | float x => exact .after fun _ => .after fun _ => .pure (hleaf rfl)
    | string str => exact .after fun _ => .after fun _ => .pure (hleaf rfl)
    | keyword word =>
      dsimp only
      split
      · exact .after fun _ => .pure (hleaf rfl)
      split
      · exact .after fun _ => .pure (hleaf rfl)
      split
      · exact .after fun _ => .pure (hleaf rfl)
      split
      · exact .after fun _ => hfunction
      · exact hsuffixed
    | mark k =>
      cases k with
      | openBrace => exact .after fun _ => gives_constructor h
      | _ => exact hsuffixed
    | _ => exact hsuffixed

theorem gives_operation (floor : Nat) (left : Expr) (hleft : left.nesting ≤ n + 1) :
    Gives (Sum.elim (·.nesting ≤ n + 1) (·.nesting ≤ n + 1)) (operation i floor left) := by
  refine .after fun token => ?_
  split
  · split
    · exact .pure hleft
    · exact .after fun _ => (h.operation _).bind fun e he =>
        .pure (Nat.max_le.2 ⟨hleft, Nat.le_succ_of_le he⟩)
  · exact .pure hleft

theorem gives_operations (floor : Nat) : Gives (·.nesting ≤ n + 1) (operations max i floor) := by
  have hrounds (e : Expr) (he : e.nesting ≤ n + 1) :
      Gives (·.nesting ≤ n + 1) (rounds (operation i floor) e) :=
    .rounds (gives_operation h floor) he
  have hnegated : Gives (·.nesting ≤ n + 1) (Expr.negate <$> i.operation signPriority) :=
    (h.operation _).map fun e he => Nat.le_succ_of_le he
  refine .after fun minus => ?_
  split
  · exact hnegated.bind hrounds
  · exact (gives_operand h).bind hrounds

/-! ## Statements -/

theorem gives_scopedBlock (locals : List String) :
    Gives (bodyNesting · ≤ n) (scopedBlock i locals) :=
  .after fun _ => .after fun _ => h.block.bind fun _ hbody => .after fun _ => .after fun _ =>
    .pure hbody

theorem gives_declaration : Gives (statNesting · ≤ n) (declaration i) := by
  refine .after fun name => .after fun given => ?_
  split
  · exact h.expr.bind fun e he => .after fun _ => .pure he
  · exact .bind (.pure (Nat.zero_le n)) fun e he => .after fun _ => .pure he

theorem gives_loop : Gives (statNesting · ≤ n) (loop i) := by
  refine .after fun counter => .after fun _ => h.expr.bind fun start hstart => .after fun _ =>
    h.expr.bind fun limit hlimit => .after fun given => ?_
  have hbody (step : Expr) (hstep : step.nesting ≤ n) : Gives (statNesting · ≤ n) (do
      expect (.keyword "do")
      return Stat.loop counter start limit step (← scopedBlock i [counter])) :=
    .after fun _ => (gives_scopedBlock h _).bind fun body hbody =>
      .pure (Nat.max_le.2 ⟨Nat.max_le.2 ⟨hstart, hlimit⟩, Nat.max_le.2 ⟨hstep, hbody⟩⟩)
  split
  · exact h.expr.bind hbody
  · exact .bind (.pure (Nat.zero_le n)) hbody

theorem gives_assignment : Gives (statNesting · ≤ n) (assignment max i) := by
  refine (gives_suffixed h).bind fun target htarget => .after fun equals => ?_
  have hassign : Gives (statNesting · ≤ n) (do return Stat.assign target (← i.expr)) :=
    h.expr.bind fun e he => .pure (Nat.max_le.2 ⟨htarget, he⟩)
  split
  · split
    · exact .after fun _ => hassign
    · exact hassign
  · split
    · exact .pure htarget
    · exact .faultNear _

theorem gives_statement :
    Gives (fun s? => ∀ s ∈ s?, statNesting s ≤ n) (statement max i) := by
  have hsome {s : Stat} (hs : statNesting s ≤ n) : ∀ s' ∈ some s, statNesting s' ≤ n :=
    fun _ hs' => Option.mem_some.1 hs' ▸ hs
  refine .after fun token => ?_
  split
  · exact .after fun _ => .pure fun _ hs => absurd hs (Option.not_mem_none _)
  · exact .after fun _ => (gives_declaration h).map fun _ hs => hsome hs
  · exact .after fun _ => (gives_loop h).map fun _ hs => hsome hs
  · exact .after fun _ => (gives_scopedBlock h _).bind fun _ hs => .pure (hsome hs)
  · exact .faultNear _
  · exact (gives_assignment h).map fun _ hs => hsome hs

theorem gives_statements : Gives (bodyNesting · ≤ n) (statements max i) := by
  have hdone {ss : List Stat} (hss : ∀ s ∈ ss, statNesting s ≤ n) :
      bodyNesting ss.reverse ≤ n := bodyNesting_le_iff.2 (by simpa using hss)
  refine Gives.rounds (Q := fun ss => ∀ s ∈ ss, statNesting s ≤ n)
    (fun ss hss => .after fun token => ?_) (by simp)
  split
  · exact .pure (hdone hss)
  · exact .pure (hdone hss)
  · refine (gives_statement h).bind fun s? hs => .pure (List.forall_mem_append.2 ⟨?_, hss⟩)
    simpa using hs

/-! ## Levels -/

omit h in
/-- With some levels left, constructors are nested no deeper than these. -/
theorem nests_inner (max levels : Nat) : Nests levels (inner max levels) := by
  induction levels with
  | zero =>
    exact ⟨fun _ _ _ _ hrun => absurd hrun operation_zero_ne_ok,
      fun _ _ _ hrun => absurd hrun block_zero_ne_ok⟩
  | succ levels ih =>
    refine ⟨fun floor s e s' hrun => ?_, fun s body s' hrun => ?_⟩
    · rw [operation_succ] at hrun
      exact gives_operations ih floor s e s' hrun
    · rw [block_succ] at hrun
      exact Nat.le_succ_of_le (gives_statements ih s body s' hrun)

end Parse

/-- **What is parsed has no more constructors inside one another than there are levels.** -/
theorem nesting_le_of_parse {limits : Limits} {text : String} {body : List Stat}
    (h : parse limits text = .ok body) : bodyNesting body ≤ limits.maxDepth := by
  obtain ⟨x, s, -, hrun⟩ := parse_eq_ok_iff.1 h
  obtain ⟨body', s', hbody, hend⟩ := Parse.bind_eq_ok.1 hrun
  have hle := Parse.gives_statements (Parse.nests_inner _ _) _ _ _ hbody
  obtain ⟨token, s'', -, hend⟩ := Parse.bind_eq_ok.1 hend
  split at hend
  · obtain ⟨_, _, hfault, -⟩ := Parse.bind_eq_ok.1 hend
    cases hfault
  · cases hend
    exact hle

end LuaGraph.Chunk
