import LuaGraph.Sorting.Contest
import Mathlib.Data.List.Basic

/-!
# What holds of a contest

A `Ranking` says what the answers in a contest may tell. `Meets` holds of a contest if it asks about
ranked elements only, and whatever it is told, in the end it has a result with some property, or it
is broken and was told a contradiction. So one induction over a sort says which elements it asks
about, what its result is like, and why it can panic.

Results: `Meets.bind` and `Meets.question` for the steps of a sort.
-/

namespace LuaGraph

/-- What may be answered about some elements: `lt x y` where `x` may be said to be less than `y`,
`le y x` where it may be said not to be. Both agree with one preorder. -/
structure Ranking (α : Type) where
  lt : α → α → Prop
  le : α → α → Prop
  among : α → Prop
  le_of_lt : ∀ x y, among x → among y → lt x y → le x y
  refl : ∀ x, among x → le x x
  trans : ∀ x y z, among x → among y → among z → le x y → le y z → le x z

namespace Ranking

variable {α : Type} (R : Ranking α)

/-- Anything may be answered about elements with a property. -/
def any (P : α → Prop) : Ranking α where
  lt _ _ := True
  le _ _ := True
  among := P
  le_of_lt _ _ _ _ _ := trivial
  refl _ _ := trivial
  trans _ _ _ _ _ _ _ _ := trivial

/-- The other way round. -/
def flip : Ranking α where
  lt x y := R.lt y x
  le x y := R.le y x
  among := R.among
  le_of_lt x y hx hy h := R.le_of_lt y x hy hx h
  refl := R.refl
  trans x y z hx hy hz h h' := R.trans z y x hz hy hx h' h

/-- What an answer to the question whether `x` is less than `y` tells. -/
def Told (x y : α) : Bool → Prop
  | true => R.lt x y
  | false => R.le y x

/-- What is less is never said to be no less. -/
def Consistent : Prop := ∀ x y, R.among x → R.among y → R.lt x y → ¬R.le y x

/-- No element comes after one that it should come before. -/
def Sorted (xs : List α) : Prop := xs.Pairwise R.le

/-- A list holds the elements of another one in order. -/
structure Orders (xs ys : List α) : Prop where
  perm : ys.Perm xs
  sorted : R.Sorted ys

end Ranking

namespace Contest

variable {α β γ : Type} {R R' : Ranking α} {Q : β → Prop} {Q' : γ → Prop} {c d : Contest α β}

/-- **What holds of a contest**, whatever it is told. -/
def Meets (R : Ranking α) (Q : β → Prop) : Contest α β → Prop
  | done b => Q b
  | broken => ¬R.Consistent
  | ask x y next => R.among x ∧ R.among y ∧ ∀ b, R.Told x y b → (next b).Meets R Q

/-- No answers break the contest. -/
def Unbroken : Contest α β → Prop
  | done _ => True
  | broken => False
  | ask _ _ next => ∀ b, (next b).Unbroken

theorem Unbroken.bind {f : β → Contest α γ} (hc : c.Unbroken) (hf : ∀ b, (f b).Unbroken) :
    (c >>= f).Unbroken := by
  induction c with
  | done b => exact hf b
  | broken => exact hc
  | ask x y next ih => exact fun b => ih b (hc b)

/-- A question is answered in the terms of another ranking. -/
def Decides (R : Ranking α) (q : α → α → Contest α Bool) (R' : Ranking α) : Prop :=
  ∀ x y, R.among x → R.among y → (q x y).Meets R (R'.Told x y)

theorem decides_less (R : Ranking α) : Decides R less R := fun _ _ hx hy => ⟨hx, hy, fun _ h => h⟩

theorem decides_flip (R : Ranking α) : Decides R (fun x y => less y x) R.flip :=
  fun _ _ hx hy => ⟨hy, hx, fun b h => by cases b <;> exact h⟩

namespace Meets

theorem pure {b : β} (h : Q b) : (Pure.pure b : Contest α β).Meets R Q := h

theorem bind {f : β → Contest α γ} (hc : c.Meets R Q) (hf : ∀ b, Q b → (f b).Meets R Q') :
    (c >>= f).Meets R Q' := by
  induction c with
  | done b => exact hf b hc
  | broken => exact hc
  | ask x y next ih =>
    obtain ⟨hx, hy, hnext⟩ := hc
    exact ⟨hx, hy, fun b hb => ih b (hnext b hb)⟩

theorem imp {Q' : β → Prop} (hc : c.Meets R Q) (h : ∀ b, Q b → Q' b) : c.Meets R Q' := by
  induction c with
  | done b => exact h b hc
  | broken => exact hc
  | ask x y next ih =>
    obtain ⟨hx, hy, hnext⟩ := hc
    exact ⟨hx, hy, fun b hb => ih b (hnext b hb)⟩

theorem map {f : β → γ} (hc : c.Meets R Q) (hf : ∀ b, Q b → Q' (f b)) : (f <$> c).Meets R Q' :=
  hc.bind fun b hb => .pure (hf b hb)

/-- Either answer is gone on with. -/
theorem question {q : α → α → Contest α Bool} {x y : α} (hq : (q x y).Meets R (R'.Told x y))
    (yes : R'.lt x y → c.Meets R Q) (no : R'.le y x → d.Meets R Q) :
    (do if ← q x y then c else d).Meets R Q :=
  hq.bind fun b hb => by
    cases b with
    | true => exact yes hb
    | false => exact no hb

/-- A question with the opposite answer. -/
theorem not {q : Contest α Bool} {x y : α} (hq : q.Meets R (R.Told x y)) :
    (Bool.not <$> q).Meets R fun b => R.Told x y !b :=
  hq.map fun b hb => by rwa [Bool.not_not]

end Meets

end Contest

end LuaGraph
