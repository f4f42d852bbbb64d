import LuaGraph.Proofs.Sorting.Short
import LuaGraph.Sorting.Stable

/-!
# Sorted lists

Where what is answered agrees with a preorder, `stable` (`sort_by`) puts elements in that order,
whatever way it takes: by insertion, by runs, or by parting. Up to 20 elements it always does, for
insertion asks no question whose answer could contradict another.

A run is *settled* by `finish`, unless it is sorted already. So what cutting and joining keep is
that every run is sorted if it is marked so, and `finish` sorts if it is not.

Results: **`meets_stable`**, and `unbroken_stable` for short lists.
-/

namespace LuaGraph

open Contest Sorting

variable {α : Type} {R R' : Ranking α} {x : α} {xs ys : List α}

/-! ## Runs -/

/-- The elements of a run are ranked, and it is sorted, if it is marked as sorted. -/
structure Sorting.Run.Good (R : Ranking α) (r : Run α) : Prop where
  among : ∀ x ∈ r.items, R.among x
  sorted : r.sorted = true → R.Sorted r.items

/-- A run is good and, unless it is marked as sorted, can be finished. -/
structure Sorting.Run.Ready (R : Ranking α) (finish : List α → Contest α (List α)) (r : Run α) :
    Prop extends r.Good R where
  finishes : r.sorted = false → ∀ xs, (∀ x ∈ xs, R.among x) →
    (finish xs).Meets R (R.Orders xs)

namespace Contest

/-- What goes on in the same direction is in order. -/
theorem meets_chain (R' : Ranking α) {q : α → α → Contest α Bool}
    (hamong : ∀ x, R.among x → R'.among x)
    (hq : ∀ x y, R.among x → R.among y → (q x y).Meets R fun b => b = true → R'.le x y)
    {w : α} (hw : R.among w) (hx : R.among x) (hwx : R'.le w x) (hxs : ∀ y ∈ xs, R.among y) :
    (chain q x xs).Meets R fun n => R'.Sorted (w :: x :: xs.take n) := by
  induction xs generalizing w x with
  | nil => exact .pure (.cons (by simpa using hwx) (R'.sorted_singleton x))
  | cons y ys ih =>
    obtain ⟨hy, hys⟩ := List.forall_mem_cons.1 hxs
    rw [chain]
    refine (hq x y hx hy).bind fun b hle => ?_
    cases b with
    | false => exact .pure (.cons (by simpa using hwx) (R'.sorted_singleton x))
    | true =>
      refine (ih hx hy (hle rfl) hys).bind fun n hn => .pure ?_
      rw [List.take_succ_cons]
      refine .cons (List.forall_mem_cons.2 ⟨hwx, fun z hz => ?_⟩) hn
      have hz' : R.among z := (List.forall_mem_cons.2 ⟨hy, fun z hz =>
        hys z (List.mem_of_mem_take hz)⟩ : ∀ z ∈ y :: ys.take n, R.among z) z hz
      exact R'.trans w x z (hamong w hw) (hamong x hx) (hamong z hz') hwx
        ((List.pairwise_cons.1 hn).1 z hz)

/-- **A stretch at the beginning of a list is in order**, one way or the other. -/
theorem meets_stretch (hx : R.among x) (hxs : ∀ y ∈ xs, R.among y) :
    (stretch x xs).Meets R fun r =>
      R.Sorted (if r.1 then (x :: xs.take r.2).reverse else x :: xs.take r.2) := by
  cases xs with
  | nil => exact .pure (R.sorted_singleton x)
  | cons y ys =>
    obtain ⟨hy, hys⟩ := List.forall_mem_cons.1 hxs
    unfold stretch
    refine (decides_less R y x hy hx).bind fun b hb => ?_
    cases b with
    | true =>
      refine (meets_chain (R := R) R.flip (fun _ h => h) (fun y z hy hz => ?_) hx hy
        (R.le_of_lt y x hy hx hb) hys).bind fun n hn => .pure ?_
      · refine (decides_less R z y hz hy).imp fun b hb htrue => ?_
        subst htrue
        exact R.le_of_lt z y hz hy hb
      · rw [List.take_succ_cons]
        exact hn.of_reverse
    | false =>
      refine (meets_chain R (fun _ h => h) (fun y z hy hz => ?_) hx hy hb hys).bind
        fun n hn => .pure ?_
      · refine (decides_less R z y hz hy).map fun b hb hfalse => ?_
        rw [Bool.not_eq_true'] at hfalse
        subst hfalse
        exact hb
      · rw [List.take_succ_cons]
        exact hn

/-- What the first run of a list is like. -/
structure Cut (R : Ranking α) (cutSorted : Bool) (x : α) (xs : List α) (c : Run α × Nat) :
    Prop where
  perm : c.1.items.Perm (x :: xs.take c.2)
  good : c.1.Good R
  marked : cutSorted = true → c.1.sorted = true

theorem meets_firstRun (cutSorted : Bool) (good : Nat) (hx : R.among x)
    (hxs : ∀ y ∈ xs, R.among y) :
    (firstRun cutSorted good x xs).Meets R (Cut R cutSorted x xs) := by
  have hcut {items : List α} {n : Nat} {marked : Bool} (hperm : items.Perm (x :: xs.take n))
      (hsorted : marked = true → R.Sorted items) (hmarked : cutSorted = true → marked = true) :
      Cut R cutSorted x xs (⟨items, marked⟩, n) := by
    refine ⟨hperm, ⟨fun z hz => ?_, hsorted⟩, hmarked⟩
    rcases List.mem_cons.1 (hperm.mem_iff.1 hz) with rfl | hz
    · exact hx
    · exact hxs z (List.mem_of_mem_take hz)
  have hrest (r : Bool × Nat)
      (hr : R.Sorted (if r.1 then (x :: xs.take r.2).reverse else x :: xs.take r.2)) :
      (if good ≤ r.2 + 1 then
          pure (⟨if r.1 then (x :: xs.take r.2).reverse else x :: xs.take r.2, true⟩, r.2)
        else if cutSorted then do
          let items ← short (x :: xs.take 31)
          return (⟨items, true⟩, 31)
        else return (⟨x :: xs.take (good - 1), false⟩, good - 1) :
          Contest α (Run α × Nat)).Meets R (Cut R cutSorted x xs) := by
    split
    · refine .pure (hcut ?_ (fun _ => hr) fun _ => rfl)
      cases r.1
      · exact .refl _
      · exact List.reverse_perm _
    · split
      · refine (meets_short (List.forall_mem_cons.2 ⟨hx, fun z hz =>
          hxs z (List.mem_of_mem_take hz)⟩)).bind fun items hitems => .pure ?_
        exact hcut hitems.perm (fun _ => hitems.sorted) fun _ => rfl
      · rename_i hcutSorted
        exact .pure (hcut (.refl _) (fun h => nomatch h) fun h => absurd h hcutSorted)
  have hstretch : (if good ≤ xs.length + 1 then stretch x xs else pure (false, 0)).Meets R
      fun r => R.Sorted (if r.1 then (x :: xs.take r.2).reverse else x :: xs.take r.2) := by
    split
    · exact meets_stretch hx hxs
    · exact .pure (R.sorted_singleton x)
  exact hstretch.bind hrest

/-- **The runs of a list are good**, and marked as sorted if they are sorted when they are cut
off. -/
theorem meets_runs (cutSorted : Bool) (good : Nat) (hxs : ∀ x ∈ xs, R.among x) :
    (runs cutSorted good xs).Meets R fun rs => (rs.flatMap Run.items).Perm xs ∧
      ∀ r ∈ rs, r.Good R ∧ (cutSorted = true → r.sorted = true) := by
  fun_induction runs cutSorted good xs with
  | case1 => exact .pure ⟨.refl _, List.forall_mem_nil _⟩
  | case2 x xs ih =>
    obtain ⟨hx, hxs⟩ := List.forall_mem_cons.1 hxs
    refine (meets_firstRun cutSorted good hx hxs).bind fun c hc => ?_
    refine (ih c.2 fun y hy => hxs y (List.mem_of_mem_drop hy)).bind fun rs ⟨hperm, hrs⟩ =>
      .pure ⟨?_, List.forall_mem_cons.2 ⟨⟨hc.good, hc.marked⟩, hrs⟩⟩
    rw [List.flatMap_cons]
    refine (hc.perm.append hperm).trans ?_
    rw [List.cons_append, List.take_append_drop]

/-! ## Joining runs -/

/-- **Merging sorted lists gives a sorted list.** -/
theorem meets_merge {q : α → α → Contest α Bool} (hq : Decides R q R')
    (hamong : ∀ x, R'.among x → R.among x) (hxs : ∀ x ∈ xs, R'.among x)
    (hys : ∀ y ∈ ys, R'.among y) (hsx : R'.Sorted xs) (hsy : R'.Sorted ys) :
    (merge q xs ys).Meets R (R'.Orders (xs ++ ys)) := by
  refine (meets_takeLeast hq hamong _ hxs hys hsx hsy).bind fun r ⟨i, j, h⟩ => .pure ⟨?_, ?_⟩
  · have hperm := h.perm.append_right (r.2.1 ++ r.2.2)
    rw [h.left_eq, h.right_eq] at hperm ⊢
    refine hperm.trans ?_
    classical
    rw [List.perm_iff_count]
    intro z
    have hx := congrArg (List.count z) (List.take_append_drop i xs)
    have hy := congrArg (List.count z) (List.take_append_drop j ys)
    simp only [List.count_append] at *
    omega
  · have hrest : R'.Sorted (r.2.1 ++ r.2.2) := by
      have hleft : R'.Sorted r.2.1 := h.left_eq ▸ hsx.sublist (List.drop_sublist i xs)
      have hright : R'.Sorted r.2.2 := h.right_eq ▸ hsy.sublist (List.drop_sublist j ys)
      have hi := h.le_left
      have hj := h.le_right
      obtain ⟨-, heq | hnil | hnil⟩ := h.enough
      · have hnil : r.2.1 = [] := by
          rw [h.left_eq, List.drop_eq_nil_iff]
          omega
        rwa [hnil]
      · rwa [hnil]
      · rwa [hnil, List.append_nil]
    exact h.sorted.append hrest fun t ht z hz => h.rest t ht z (List.mem_append.1 hz)

theorem meets_mergeShorter (hxs : ∀ x ∈ xs, R.among x) (hys : ∀ y ∈ ys, R.among y)
    (hsx : R.Sorted xs) (hsy : R.Sorted ys) :
    (mergeShorter xs ys).Meets R (R.Orders (xs ++ ys)) := by
  unfold mergeShorter
  split
  · exact meets_merge (decides_less R) (fun _ h => h) hxs hys hsx hsy
  · refine (meets_merge (decides_flip R) (fun _ h => h)
      (fun y hy => hys y (List.mem_reverse.1 hy)) (fun x hx => hxs x (List.mem_reverse.1 hx))
      hsy.reverse hsx.reverse).map fun zs hzs => ?_
    have horders := hzs.of_flip
    refine ⟨horders.perm.trans ?_, horders.sorted⟩
    exact ((List.reverse_perm _).append (List.reverse_perm _)).trans List.perm_append_comm

section

variable {finish : List α → Contest α (List α)} {r s : Run α} {before : List (Run α × Nat)}
  {after : List (Run α)}

/-- A run that is ready is sorted when it is settled. -/
theorem meets_settled (hr : r.Ready R finish) :
    (r.settled finish).Meets R (R.Orders r.items) := by
  unfold Run.settled
  cases hs : r.sorted with
  | true => exact .pure ⟨.refl _, hr.sorted hs⟩
  | false => exact hr.finishes hs r.items hr.among

theorem meets_join (hr : r.Ready R finish) (hs : s.Ready R finish) :
    (r.join finish s).Meets R fun j => j.Ready R finish ∧ j.items.Perm (r.items ++ s.items) := by
  have hready {j : Run α} (hperm : j.items.Perm (r.items ++ s.items))
      (hsorted : j.sorted = true → R.Sorted j.items)
      (hfinish : j.sorted = false → r.sorted = false) :
      j.Ready R finish ∧ j.items.Perm (r.items ++ s.items) := by
    refine ⟨⟨⟨fun x hx => ?_, hsorted⟩, fun hnot => hr.finishes (hfinish hnot)⟩, hperm⟩
    exact (List.mem_append.1 (hperm.mem_iff.1 hx)).elim (hr.among x) (hs.among x)
  unfold Run.join
  split
  · refine (meets_settled hr).bind fun xs hxs => (meets_settled hs).bind fun ys hys => ?_
    refine (meets_mergeShorter (hxs.among hr.among) (hys.among hs.among) hxs.sorted
      hys.sorted).bind fun zs hzs => .pure (hready ?_ (fun _ => hzs.sorted) (fun h => nomatch h))
    exact hzs.perm.trans (hxs.perm.append hys.perm)
  · rename_i hnot
    rw [Bool.not_eq_true, Bool.or_eq_false_iff] at hnot
    exact .pure (hready (.refl _) (fun h => nomatch h) fun _ => hnot.1)

theorem meets_collapse (depth : Nat) (hbefore : ∀ b ∈ before, b.1.Ready R finish)
    (hr : r.Ready R finish) :
    (collapse finish depth before r).Meets R fun c =>
      (∀ b ∈ c.1, b.1.Ready R finish) ∧ c.2.Ready R finish ∧ (depth = 0 → c.1 = []) ∧
        (c.2.items ++ c.1.flatMap (·.1.items)).Perm
          (r.items ++ before.flatMap (·.1.items)) := by
  induction before generalizing r with
  | nil => exact .pure ⟨hbefore, hr, fun _ => rfl, .refl _⟩
  | cons b before ih =>
    obtain ⟨s, d⟩ := b
    obtain ⟨hs, hbefore'⟩ := List.forall_mem_cons.1 hbefore
    rw [collapse]
    split
    · refine (meets_join hs hr).bind fun j ⟨hj, hperm⟩ => (ih hbefore' hj).imp fun c hc =>
        ⟨hc.1, hc.2.1, hc.2.2.1, hc.2.2.2.trans ?_⟩
      rw [List.flatMap_cons, ← List.append_assoc]
      exact (hperm.trans List.perm_append_comm).append_right _
    · rename_i hlt
      exact .pure ⟨hbefore, hr, fun hzero => absurd (hzero ▸ Nat.zero_le d) hlt, .refl _⟩

theorem meets_tree (n start : Nat) (hbefore : ∀ b ∈ before, b.1.Ready R finish)
    (hr : r.Ready R finish) (hafter : ∀ s ∈ after, s.Ready R finish) :
    (tree finish n before start r after).Meets R fun t => t.Ready R finish ∧
      t.items.Perm (r.items ++ before.flatMap (·.1.items) ++ after.flatMap Run.items) := by
  induction after generalizing before start r with
  | nil =>
    rw [tree]
    refine (meets_collapse 0 hbefore hr).bind fun c ⟨_, hc, hnil, hperm⟩ => .pure ⟨hc, ?_⟩
    rw [hnil rfl, List.flatMap_nil, List.append_nil] at hperm
    rwa [List.flatMap_nil, List.append_nil]
  | cons next after ih =>
    obtain ⟨hnext, hafter⟩ := List.forall_mem_cons.1 hafter
    rw [tree]
    refine (meets_collapse _ hbefore hr).bind fun c ⟨hbefore', hc, _, hperm⟩ =>
      (ih _ (List.forall_mem_cons.2 ⟨hc, hbefore'⟩) hnext hafter).imp fun t ⟨ht, hpermt⟩ =>
        ⟨ht, hpermt.trans ?_⟩
    rw [List.flatMap_cons, List.flatMap_cons, ← List.append_assoc _ next.items]
    exact ((hperm.append_left next.items).trans List.perm_append_comm).append_right _

/-- **Sorting by runs sorts**, if the runs are sorted when they are cut off or can be finished. -/
theorem meets_byRuns (cutSorted : Bool)
    (hfinish : cutSorted = false → ∀ xs, (∀ x ∈ xs, R.among x) →
      (finish xs).Meets R (R.Orders xs)) (hxs : ∀ x ∈ xs, R.among x) :
    (byRuns finish cutSorted xs).Meets R (R.Orders xs) := by
  unfold byRuns
  refine (meets_runs cutSorted _ hxs).bind fun rs ⟨hperm, hrs⟩ => ?_
  have hready (r : Run α) (hr : r ∈ rs) : r.Ready R finish := by
    obtain ⟨hgood, hmarked⟩ := hrs r hr
    refine ⟨hgood, fun hnot => hfinish ?_⟩
    cases cutSorted with
    | true => exact nomatch hnot.symm.trans (hmarked rfl)
    | false => rfl
  cases rs with
  | nil => exact .pure ⟨hperm, .nil⟩
  | cons run after =>
    obtain ⟨hrun, hafter⟩ := List.forall_mem_cons.1 hready
    refine (meets_tree xs.length 0 (List.forall_mem_nil _) hrun hafter).bind fun t ⟨ht, hpermt⟩ =>
      (meets_settled ht).imp fun ys hys => ⟨hys.perm.trans (hpermt.trans ?_), hys.sorted⟩
    rwa [List.flatMap_nil, List.append_nil, ← List.flatMap_cons]

end

/-! ## Parting -/

theorem meets_median {item : Nat → α} (hitem : ∀ i, R.among (item i)) (a b c : Nat) :
    (median item a b c).Meets R fun _ => True := by
  unfold median
  refine (decides_less R _ _ (hitem a) (hitem b)).bind fun x _ =>
    (decides_less R _ _ (hitem a) (hitem c)).bind fun y _ => ?_
  split
  · exact (decides_less R _ _ (hitem b) (hitem c)).bind fun z _ => .pure trivial
  · exact .pure trivial

theorem meets_medianOf {item : Nat → α} (hitem : ∀ i, R.among (item i)) (n a b c : Nat) :
    (medianOf item n a b c).Meets R fun _ => True := by
  fun_induction medianOf item n a b c with
  | case1 n a b c => exact meets_median hitem a b c
  | case2 n a b c _ m iha ihb ihc =>
    exact iha.bind fun a _ => ihb.bind fun b _ => ihc.bind fun c _ => meets_median hitem a b c

theorem meets_pivot {item : Nat → α} (hitem : ∀ i, R.among (item i)) (n : Nat) :
    (pivot item n).Meets R fun _ => True :=
  meets_medianOf hitem _ _ _ _

/-- Elements on either side of a pivot. -/
structure Parts (R : Ranking α) (p : α) (xs : List α) (r : List α × List α) : Prop where
  perm : (r.1 ++ r.2).Perm xs
  low : ∀ y ∈ r.1, R.le y p
  high : ∀ y ∈ r.2, R.le p y

theorem Parts.append {p : α} {r s : List α × List α} (h : Parts R p xs r) (h' : Parts R p ys s) :
    Parts R p (xs ++ ys) (r.1 ++ s.1, r.2 ++ s.2) where
  perm := by
    refine .trans ?_ (h.perm.append h'.perm)
    rw [List.append_assoc, List.append_assoc, ← List.append_assoc s.1, ← List.append_assoc r.2]
    exact (List.perm_append_comm.append_right s.2).append_left r.1
  low := by
    intro y hy
    exact (List.mem_append.1 hy).elim (h.low y) (h'.low y)
  high := by
    intro y hy
    exact (List.mem_append.1 hy).elim (h.high y) (h'.high y)

theorem meets_part {p : α} {test : α → Contest α Bool}
    (htest : ∀ x ∈ xs, (test x).Meets R fun b => if b then R.le x p else R.le p x) :
    (part test xs).Meets R (Parts R p xs) := by
  induction xs with
  | nil => exact .pure ⟨.refl _, List.forall_mem_nil _, List.forall_mem_nil _⟩
  | cons x xs ih =>
    obtain ⟨hx, hxs⟩ := List.forall_mem_cons.1 htest
    refine hx.bind fun b hb => (ih hxs).bind fun r hr => .pure ?_
    cases b with
    | true => exact ⟨hr.perm.cons x, List.forall_mem_cons.2 ⟨hb, hr.low⟩, hr.high⟩
    | false =>
      exact ⟨List.perm_middle.trans (hr.perm.cons x), hr.low, List.forall_mem_cons.2 ⟨hb, hr.high⟩⟩

/-- The pivot may go to either side. -/
theorem meets_partAround {p : α} {test : α → Contest α Bool} (i : Nat) (side : Bool)
    (hp : R.le p p) (hi : ∀ x ∈ xs[i]?, x = p)
    (htest : ∀ x ∈ xs, (test x).Meets R fun b => if b then R.le x p else R.le p x) :
    (partAround i side test xs).Meets R (Parts R p xs) := by
  unfold partAround
  refine (meets_part fun x hx => htest x (List.mem_of_mem_take hx)).bind fun r hr =>
    (meets_part fun x hx => htest x (List.mem_of_mem_drop hx)).bind fun s hs => ?_
  dsimp only
  have hplaced : ∀ x ∈ (xs.drop i).take 1, x = p := by
    intro x hx
    obtain ⟨j, hj, rfl⟩ := List.mem_take_iff_getElem.1 hx
    obtain rfl : j = 0 := by omega
    exact hi _ (by simp)
  have hall : xs = xs.take i ++ ((xs.drop i).take 1 ++ xs.drop (i + 1)) := by
    rw [← List.drop_drop, List.take_append_drop, List.take_append_drop]
  generalize (xs.drop i).take 1 = placed at hplaced hall
  have hle : ∀ x ∈ placed, R.le x p ∧ R.le p x := fun x hx => by
    rw [hplaced x hx]
    exact ⟨hp, hp⟩
  rw [hall]
  split
  · have hparts : Parts R p placed (placed, []) :=
      ⟨.of_eq (List.append_nil _), fun x hx => (hle x hx).1, List.forall_mem_nil _⟩
    exact .pure (hr.append (hparts.append hs))
  · have hparts : Parts R p placed ([], placed) :=
      ⟨.refl _, List.forall_mem_nil _, fun x hx => (hle x hx).2⟩
    exact .pure (hr.append (hparts.append hs))

theorem meets_bySortedRuns (hxs : ∀ x ∈ xs, R.among x) :
    (bySortedRuns xs).Meets R (R.Orders xs) :=
  meets_byRuns true (fun h => nomatch h) hxs

/-- The elements around a pivot, sorted on either side. -/
theorem Parts.orders {p : α} {low high low' high' : List α} (h : Parts R p xs (low, high))
    (hp : R.among p) (hxs : ∀ x ∈ xs, R.among x) (hlow : R.Orders low low')
    (hhigh : R.Orders high high') : R.Orders xs (low' ++ high') where
  perm := (hlow.perm.append hhigh.perm).trans h.perm
  sorted := by
    refine hlow.sorted.append hhigh.sorted fun a ha b hb => ?_
    have hlow := hlow.perm.mem_iff.1 ha
    have hhigh := hhigh.perm.mem_iff.1 hb
    exact R.trans a p b (hxs a (h.perm.mem_iff.1 (List.mem_append_left _ hlow))) hp
      (hxs b (h.perm.mem_iff.1 (List.mem_append_right _ hhigh))) (h.low a hlow) (h.high b hhigh)

/-- Where the floor is not below the pivot, nothing is. -/
theorem meets_onFloor {p : α} (floor : Option α) (hp : R.among p) (hxs : ∀ x ∈ xs, R.among x) :
    (∀ f ∈ floor, R.among f ∧ ∀ x ∈ xs, R.le f x) →
    (match floor with
      | some f => Bool.not <$> less f p
      | none => pure false : Contest α Bool).Meets R
      fun b => b = true → ∀ x ∈ xs, R.le p x := by
  intro hfloor
  cases floor with
  | none => exact .pure (fun h => nomatch h)
  | some f =>
    obtain ⟨hf, hbelow⟩ := hfloor f rfl
    refine (decides_less R f p hf hp).not.imp fun b hb hnot x hx => ?_
    subst hnot
    exact R.trans p f x hp hf (hxs x hx) hb (hbelow x hx)

/-- What is below a pivot, and the rest. -/
theorem meets_lower {p : α} {onFloor : Bool} (i : Nat) (hp : R.among p)
    (hi : ∀ x ∈ xs[i]?, x = p) (hxs : ∀ x ∈ xs, R.among x)
    (hfloor : onFloor = true → ∀ x ∈ xs, R.le p x) :
    (if onFloor then pure ([], xs) else partAround i false (fun y => less y p) xs).Meets R
      (Parts R p xs) := by
  split
  · rename_i hon
    exact .pure ⟨.refl _, List.forall_mem_nil _, hfloor hon⟩
  · refine meets_partAround i false (R.refl p hp) hi fun y hy => ?_
    refine (decides_less R y p (hxs y hy) hp).imp fun b hb => ?_
    cases b with
    | true => exact R.le_of_lt y p (hxs y hy) hp hb
    | false => exact hb

/-- What is level with the least elements, and what is above them. -/
theorem meets_upper {p : α} (i : Nat) (hp : R.among p) (hi : ∀ x ∈ xs[i]?, x = p)
    (hxs : ∀ x ∈ xs, R.among x) :
    (partAround i true (fun y => Bool.not <$> less p y) xs).Meets R (Parts R p xs) := by
  refine meets_partAround i true (R.refl p hp) hi fun y hy => ?_
  refine (decides_less R p y hp (hxs y hy)).not.imp fun b hb => ?_
  cases b with
  | true => exact hb
  | false => exact R.le_of_lt p y hp (hxs y hy) hb

/-- **Sorting by parting sorts**, if nothing is below the floor. -/
theorem meets_parted (limit : Nat) (floor : Option α) (hxs : ∀ x ∈ xs, R.among x)
    (hfloor : ∀ f ∈ floor, R.among f ∧ ∀ x ∈ xs, R.le f x) :
    (parted limit floor xs).Meets R (R.Orders xs) := by
  fun_induction parted limit floor xs with
  | case1 => exact .pure ⟨.refl _, .nil⟩
  | case2 => exact meets_short hxs
  | case3 => exact meets_bySortedRuns hxs
  | case4 floor x xs _ limit ihhigh ihlow ihrest =>
    have hamong (i : Nat) : R.among ((x :: xs).getD i x) := by
      rw [List.getD_eq_getElem?_getD]
      cases hi : (x :: xs)[i]? with
      | none => exact hxs x List.mem_cons_self
      | some y => exact hxs y (List.mem_of_getElem? hi)
    refine (meets_pivot hamong _).bind fun i _ => ?_
    have hp := hamong i
    have hi : ∀ y ∈ (x :: xs)[i]?, y = (x :: xs).getD i x := fun y hy => by
      rw [List.getD_eq_getElem?_getD, Option.mem_def.1 hy, Option.getD_some]
    have ihrest := ihrest i
    dsimp only at ihrest ⊢
    generalize (x :: xs).getD i x = p at hp hi ihrest ⊢
    refine (meets_onFloor floor hp hxs hfloor).bind fun onFloor hon => ?_
    refine (meets_lower i hp hi hxs hon).bind fun (low, rest) hparts => ?_
    have hin (y : α) (hy : y ∈ low ++ rest) : R.among y := hxs y (hparts.perm.mem_iff.1 hy)
    have hrest (y : α) (hy : y ∈ rest) : R.among y := hin y (List.mem_append_right _ hy)
    dsimp only
    split
    · rename_i hempty
      rw [List.isEmpty_iff] at hempty
      subst hempty
      refine (meets_upper i hp hi hxs).bind fun (first, high) hparts' => ?_
      have hin' (y : α) (hy : y ∈ first ++ high) : R.among y := hxs y (hparts'.perm.mem_iff.1 hy)
      have hhigh (y : α) (hy : y ∈ high) : R.among y := hin' y (List.mem_append_right _ hy)
      refine (ihhigh high hhigh (by simp)).bind fun sorted hsorted => .pure ?_
      refine hparts'.orders hp hxs ⟨.refl _, ?_⟩ hsorted
      -- nothing is below the pivot, so all that is not above it is level with it
      refine List.pairwise_of_forall_mem_list fun a ha b hb => ?_
      have hb' := hin' b (List.mem_append_left _ hb)
      have hleast := hparts.high b (hparts.perm.mem_iff.2
        (hparts'.perm.mem_iff.1 (List.mem_append_left _ hb)))
      exact R.trans a p b (hin' a (List.mem_append_left _ ha)) hp hb' (hparts'.low a ha) hleast
    · refine (ihlow low (fun y hy => hin y (List.mem_append_left _ hy)) fun f hf => ?_).bind
        fun lower hlower => (ihrest rest hrest fun f hf => ?_).bind
          fun upper hupper => .pure (hparts.orders hp hxs hlower hupper)
      · obtain ⟨hf, hbelow⟩ := hfloor f hf
        exact ⟨hf, fun y hy => hbelow y (hparts.perm.mem_iff.1 (List.mem_append_left _ hy))⟩
      · obtain rfl := Option.some.inj hf
        exact ⟨hp, hparts.high⟩

/-- **Sorting sorts.** Whatever it is told, in the end the elements are in order, or it was told a
contradiction. -/
theorem meets_stable (hxs : ∀ x ∈ xs, R.among x) : (stable xs).Meets R (R.Orders xs) := by
  unfold stable
  split
  · exact meets_byInsertion hxs
  · exact meets_byRuns _ (fun _ ys hys => meets_parted _ none hys (by simp)) hxs

/-- Up to 20 elements are inserted one by one. -/
theorem unbroken_stable (h : xs.length ≤ 20) : (stable xs).Unbroken := by
  rw [stable, if_pos h]
  exact unbroken_byInsertion xs

end Contest

end LuaGraph
