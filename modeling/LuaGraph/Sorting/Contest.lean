/-!
# Contests

A sort by comparison learns the order of its elements by asking which of two is less, one question
after the other. A `Contest` is the tree of its questions: each has a branch for either answer, and
a branch ends with a result, or it is *broken*. That is the outcome of the sort that `sort_by` runs
(`sort_entries`) where the answers contradict one another: it panics, and there is no result.

To answer may be an action, which can panic as well: what decides between two entries is a text
that has to be made first (`signature`). `run` takes such an action; it is the one way in which a
sort is run.

Out of scope: in which order questions are asked that do not depend on one another. Answers are the
same whenever they are asked for, so it makes no difference to the result.
-/

namespace LuaGraph

/-- Questions of the kind "is `x` less than `y`?", each of which depends on the answers before, and
what is made of the answers. -/
inductive Contest (α β : Type)
  | done (b : β)
  /-- The answers contradict one another. -/
  | broken
  | ask (x y : α) (next : Bool → Contest α β)

namespace Contest

variable {α β γ : Type}

/-- Goes on with what is made of the answers. -/
def bind : Contest α β → (β → Contest α γ) → Contest α γ
  | done b, f => f b
  | broken, _ => broken
  | ask x y next, f => ask x y fun answer => (next answer).bind f

instance : Monad (Contest α) where
  pure := done
  bind := bind

/-- Asks whether the first element is less. -/
def less (x y : α) : Contest α Bool := ask x y done

/-- What is made of the answers of an action. It panics where the contest is broken, or where there
is no answer. -/
def run {m : Type → Type} [Monad m] [MonadExceptOf Unit m] (answer : α → α → m Bool) :
    Contest α β → m β
  | done b => pure b
  | broken => throw ()
  | ask x y next => do (next (← answer x y)).run answer

end Contest

end LuaGraph
