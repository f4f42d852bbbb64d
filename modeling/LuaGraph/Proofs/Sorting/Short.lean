import LuaGraph.Proofs.Sorting.Contest
import LuaGraph.Sorting.Short

/-!
# Sorted short lists

Where what is answered agrees with a preorder, sorting puts elements in that order. Elements that
the preorder has level may be decided in any way, transitive or not: NaN is level with every number,
so what decides between entries is no order where a NaN breaks a tie, but it agrees with the order
of their keys.

An element that `mergeFromEnds` takes from both ends is said to be less than another one, and not to
be less than it. So its contest is broken by a contradiction only.

Results: `meets_byInsertion`, `meets_mergeFromEnds`, **`meets_short`**.
-/

namespace LuaGraph

open Contest Sorting

variable {α : Type} {R R' : Ranking α} {x y : α} {xs ys zs : List α}

namespace Ranking

theorem sorted_singleton (R : Ranking α) (x : α) : R.Sorted [x] := List.pairwise_singleton ..

theorem Sorted.reverse (h : R.Sorted xs) : R.flip.Sorted xs.reverse := List.pairwise_reverse.2 h

theorem Sorted.of_reverse (h : R.flip.Sorted xs) : R.Sorted xs.reverse := List.pairwise_reverse.2 h

theorem Sorted.cons (hx : ∀ y ∈ xs, R.le x y) (h : R.Sorted xs) : R.Sorted (x :: xs) :=
  List.pairwise_cons.2 ⟨hx, h⟩

theorem Sorted.append (hx : R.Sorted xs) (hy : R.Sorted ys) (h : ∀ a ∈ xs, ∀ b ∈ ys, R.le a b) :
    R.Sorted (xs ++ ys) :=
  List.pairwise_append.2 ⟨hx, hy, h⟩

theorem Orders.among (h : R.Orders xs ys) (hxs : ∀ x ∈ xs, R.among x) : ∀ y ∈ ys, R.among y :=
  fun _ hy => hxs _ (h.perm.mem_iff.1 hy)

theorem Orders.of_flip (h : R.flip.Orders xs ys) : R.Orders xs ys.reverse where
  perm := (List.reverse_perm ys).trans h.perm
  sorted := h.sorted.of_reverse

end Ranking

namespace Contest

/-! ## Insertion -/

/-- An element is inserted into a list that is read from its greatest element on. -/
theorem meets_insertDown (hx : R.among x) (hys : ∀ y ∈ ys, R.among y) (hs : R.flip.Sorted ys) :
    (insertDown x ys).Meets R (R.flip.Orders (x :: ys)) := by
  induction ys with
  | nil => exact .pure ⟨.refl _, R.flip.sorted_singleton x⟩
  | cons y ys ih =>
    obtain ⟨hy, hys⟩ := List.forall_mem_cons.1 hys
    obtain ⟨hle, hs'⟩ := List.pairwise_cons.1 hs
    rw [insertDown]
    refine .question (decides_less R x y hx hy) (fun hlt => ?_) fun hyx => .pure ⟨.refl _, ?_⟩
    · refine (ih hys hs').bind fun zs hzs => .pure ⟨(hzs.perm.cons y).trans (.swap x y ys), ?_⟩
      refine .cons (fun z hz => ?_) hzs.sorted
      rcases List.mem_cons.1 (hzs.perm.mem_iff.1 hz) with rfl | hz
      · exact R.le_of_lt z y hx hy hlt
      · exact hle z hz
    · refine .cons (fun z hz => ?_) hs
      rcases List.mem_cons.1 hz with rfl | hz
      · exact hyx
      · exact R.trans z y x (hys z hz) hy hx (hle z hz) hyx

/-- Elements are inserted one by one. -/
theorem meets_insertAll (hxs : ∀ x ∈ xs, R.among x) (hys : ∀ y ∈ ys, R.among y)
    (hs : R.Sorted ys) : (insertAll ys xs).Meets R (R.Orders (ys ++ xs)) := by
  have hfold (zs : List α) (hzs : ∀ z ∈ zs, R.among z) (hs : R.flip.Sorted zs) :
      (xs.foldlM (fun ys x => insertDown x ys) zs).Meets R (R.flip.Orders (zs ++ xs)) := by
    induction xs generalizing zs with
    | nil => exact .pure ⟨.of_eq (List.append_nil zs).symm, hs⟩
    | cons x xs ih =>
      obtain ⟨hx, hxs⟩ := List.forall_mem_cons.1 hxs
      rw [List.foldlM_cons]
      refine (meets_insertDown hx hzs hs).bind fun ws hws => ?_
      have hin := hws.among (R := R.flip) (List.forall_mem_cons.2 ⟨hx, hzs⟩)
      refine (ih hxs ws hin hws.sorted).imp fun vs hvs => ⟨hvs.perm.trans ?_, hvs.sorted⟩
      exact (hws.perm.append_right xs).trans List.perm_middle.symm
  refine (hfold ys.reverse (fun y hy => hys y (List.mem_reverse.1 hy)) hs.reverse).map
    fun zs hzs => ?_
  have horders := hzs.of_flip
  exact ⟨horders.perm.trans ((List.reverse_perm ys).append_right xs), horders.sorted⟩

/-- **Sorting by insertion sorts.** -/
theorem meets_byInsertion (hxs : ∀ x ∈ xs, R.among x) :
    (byInsertion xs).Meets R (R.Orders xs) :=
  meets_insertAll hxs (List.forall_mem_nil _) .nil

/-- An insertion asks no question whose answer could contradict another. -/
theorem unbroken_byInsertion (xs : List α) : (byInsertion xs).Unbroken := by
  have hinsert (x : α) (ys : List α) : (insertDown x ys).Unbroken := by
    induction ys with
    | nil => exact trivial
    | cons y ys ih =>
      intro b
      cases b with
      | true => exact ih.bind fun _ => trivial
      | false => exact trivial
  have hfold (ys : List α) : (xs.foldlM (fun ys x => insertDown x ys) ys).Unbroken := by
    induction xs generalizing ys with
    | nil => exact trivial
    | cons x xs ih =>
      rw [List.foldlM_cons]
      exact (hinsert x ys).bind ih
  exact (hfold _).bind fun _ => trivial

/-! ## Four elements -/

/-- The lesser and the greater one of two elements. -/
structure Bounds (R : Ranking α) (x y : α) (t : α × α × Bool) : Prop where
  perm : [t.1, t.2.1].Perm [x, y]
  left : R.among t.1
  right : R.among t.2.1
  ordered : R.le t.1 t.2.1
  below : R.le t.1 x ∧ R.le t.1 y
  above : R.le x t.2.1 ∧ R.le y t.2.1
  greatest : ∀ z, R.le z x → R.le z y → R.le z t.1
  least : ∀ z, R.le x z → R.le y z → R.le t.2.1 z

theorem Bounds.swap {t : α × α × Bool} (h : Bounds R x y t) : Bounds R y x t where
  perm := h.perm.trans (.swap y x [])
  left := h.left
  right := h.right
  ordered := h.ordered
  below := h.below.symm
  above := h.above.symm
  greatest z hy hx := h.greatest z hx hy
  least z hy hx := h.least z hx hy

theorem meets_two (hx : R.among x) (hy : R.among y) : (two x y).Meets R (Bounds R x y) := by
  refine .question (decides_less R y x hy hx) (fun hlt => ?_) fun hle => ?_
  · have hle := R.le_of_lt y x hy hx hlt
    exact .pure ⟨.swap x y [], hy, hx, hle, ⟨hle, R.refl y hy⟩, ⟨R.refl x hx, hle⟩,
      fun _ _ h => h, fun _ h _ => h⟩
  · exact .pure ⟨.refl _, hx, hy, hle, ⟨R.refl x hx, hle⟩, ⟨hle, R.refl y hy⟩,
      fun _ h _ => h, fun _ _ h => h⟩

/-- **Five questions put four elements in order.** -/
theorem meets_four {p q r s : α} (hp : R.among p) (hq : R.among q) (hr : R.among r)
    (hs : R.among s) : (four p q r s).Meets R (R.Orders [p, q, r, s]) := by
  unfold four
  refine (meets_two hp hq).bind fun ab hab => (meets_two hr hs).bind fun cd hcd => ?_
  refine (meets_two hab.left hcd.left).bind fun low hlow => ?_
  refine (meets_two hab.right hcd.right).bind fun high hhigh => ?_
  -- the lesser of the greater two is above the least, and the greater of the lesser two is below
  -- the greatest
  have hleast : R.le low.1 high.1 := hhigh.greatest _
    (R.trans _ _ _ hlow.left hab.left hab.right hlow.below.1 hab.ordered)
    (R.trans _ _ _ hlow.left hcd.left hcd.right hlow.below.2 hcd.ordered)
  have hgreatest : R.le low.2.1 high.2.1 := hlow.least _
    (R.trans _ _ _ hab.left hab.right hhigh.right hab.ordered hhigh.above.1)
    (R.trans _ _ _ hcd.left hcd.right hhigh.right hcd.ordered hhigh.above.2)
  have hinner (t : α × α × Bool) (ht : Bounds R low.2.1 high.1 t) :
      R.Orders [p, q, r, s] [low.1, t.1, t.2.1, high.2.1] := by
    have h₁ : R.le low.1 t.1 := ht.greatest _ hlow.ordered hleast
    have h₂ : R.le t.2.1 high.2.1 := ht.least _ hgreatest hhigh.ordered
    have h₁₂ := R.trans _ _ _ hlow.left ht.left ht.right h₁ ht.ordered
    have h₂₃ := R.trans _ _ _ ht.left ht.right hhigh.right ht.ordered h₂
    have h₁₃ := R.trans _ _ _ hlow.left ht.right hhigh.right h₁₂ h₂
    constructor
    · classical
      rw [List.perm_iff_count]
      intro z
      have hcount {x y : α} {t : α × α × Bool} (ht : Bounds R x y t) := ht.perm.count_eq z
      have := hcount hab
      have := hcount hcd
      have := hcount hlow
      have := hcount hhigh
      have := hcount ht
      simp only [List.count_cons, List.count_nil] at *
      omega
    · simp [Ranking.Sorted, h₁, h₂, h₁₂, h₂₃, h₁₃, ht.ordered]
  dsimp only
  split
  · exact (meets_two hlow.right hhigh.left).bind fun t ht => .pure (hinner t ht)
  · exact (meets_two hhigh.left hlow.right).bind fun t ht => .pure (hinner t ht.swap)

/-! ## Merging -/

/-- **The least elements of two sorted lists**: they are in order, what is left is not less, and
what was taken from the second list is less than something in the first that was left at that time.
-/
structure Takes (R : Ranking α) (n i j : Nat) (xs ys taken left right : List α) : Prop where
  le_left : i ≤ xs.length
  le_right : j ≤ ys.length
  perm : taken.Perm (xs.take i ++ ys.take j)
  left_eq : left = xs.drop i
  right_eq : right = ys.drop j
  sorted : R.Sorted taken
  rest : ∀ t ∈ taken, ∀ z, z ∈ left ∨ z ∈ right → R.le t z
  overtakes : ∀ t ∈ ys.take j, ∃ z ∈ xs, R.lt t z ∧ ∀ w ∈ left, R.le z w
  enough : i + j ≤ n ∧ (i + j = n ∨ left = [] ∨ right = [])

/-- Nothing is taken. -/
theorem takes_nothing {n : Nat} (h : n = 0 ∨ xs = [] ∨ ys = []) :
    Takes R' n 0 0 xs ys [] xs ys where
  le_left := Nat.zero_le _
  le_right := Nat.zero_le _
  perm := .refl _
  left_eq := rfl
  right_eq := rfl
  sorted := .nil
  rest _ ht := absurd ht List.not_mem_nil
  overtakes _ ht := absurd ht List.not_mem_nil
  enough := ⟨Nat.zero_le n, h.imp Eq.symm id⟩

section

variable {n i j : Nat} {taken left right : List α}

theorem Takes.mem {z : α} (h : Takes R n i j xs ys taken left right)
    (hz : z ∈ taken ∨ z ∈ left ∨ z ∈ right) : z ∈ xs ∨ z ∈ ys := by
  rw [h.perm.mem_iff, List.mem_append, h.left_eq, h.right_eq] at hz
  rcases hz with (hz | hz) | hz | hz
  · exact .inl (List.mem_of_mem_take hz)
  · exact .inr (List.mem_of_mem_take hz)
  · exact .inl (List.mem_of_mem_drop hz)
  · exact .inr (List.mem_of_mem_drop hz)

/-- The first of a sorted list, if it is not greater than the first of another one, is not greater
than anything in both. -/
theorem first_le (hx : R.among x) (hy : R.among y) (hys : ∀ y ∈ ys, R.among y)
    (hsx : R.Sorted (x :: xs)) (hsy : R.Sorted (y :: ys)) (hle : R.le x y) {z : α}
    (hz : z ∈ xs ∨ z ∈ y :: ys) : R.le x z := by
  rcases hz with hz | hz
  · exact (List.pairwise_cons.1 hsx).1 z hz
  · rcases List.mem_cons.1 hz with rfl | hz
    · exact hle
    · exact R.trans x y z hx hy (hys z hz) hle ((List.pairwise_cons.1 hsy).1 z hz)

/-- The first of the first list is taken. -/
theorem Takes.cons_left (h : Takes R n i j xs (y :: ys) taken left right)
    (hx : ∀ z, z ∈ xs ∨ z ∈ y :: ys → R.le x z) :
    Takes R (n + 1) (i + 1) j (x :: xs) (y :: ys) (x :: taken) left right where
  le_left := Nat.succ_le_succ h.le_left
  le_right := h.le_right
  perm := h.perm.cons x
  left_eq := h.left_eq
  right_eq := h.right_eq
  sorted := h.sorted.cons fun z hz => hx z (h.mem (.inl hz))
  rest := List.forall_mem_cons.2 ⟨fun z hz => hx z (h.mem (.inr hz)), h.rest⟩
  overtakes t ht := by
    obtain ⟨z, hz, hlt⟩ := h.overtakes t ht
    exact ⟨z, List.mem_cons_of_mem x hz, hlt⟩
  enough := ⟨by have := h.enough.1; omega, h.enough.2.imp (fun h => by omega) id⟩

/-- The first of the second list is taken. -/
theorem Takes.cons_right (h : Takes R n i j (x :: xs) ys taken left right)
    (hy : ∀ z, z ∈ x :: xs ∨ z ∈ ys → R.le y z) (hlt : R.lt y x)
    (hx : ∀ w ∈ x :: xs, R.le x w) :
    Takes R (n + 1) i (j + 1) (x :: xs) (y :: ys) (y :: taken) left right where
  le_left := h.le_left
  le_right := Nat.succ_le_succ h.le_right
  perm := (h.perm.cons y).trans List.perm_middle.symm
  left_eq := h.left_eq
  right_eq := h.right_eq
  sorted := h.sorted.cons fun z hz => hy z (h.mem (.inl hz))
  rest := List.forall_mem_cons.2 ⟨fun z hz => hy z (h.mem (.inr hz)), h.rest⟩
  overtakes := List.forall_mem_cons.2
    ⟨⟨x, List.mem_cons_self .., hlt, fun w hw => hx w (by
      rw [h.left_eq] at hw
      exact List.mem_of_mem_drop hw)⟩, h.overtakes⟩
  enough := ⟨by have := h.enough.1; omega, h.enough.2.imp (fun h => by omega) id⟩

/-- **The least elements of two sorted lists are taken.** -/
theorem meets_takeLeast {q : α → α → Contest α Bool} (hq : Decides R q R')
    (hamong : ∀ x, R'.among x → R.among x) (n : Nat) (hxs : ∀ x ∈ xs, R'.among x)
    (hys : ∀ y ∈ ys, R'.among y) (hsx : R'.Sorted xs) (hsy : R'.Sorted ys) :
    (takeLeast q n xs ys).Meets R fun r => ∃ i j, Takes R' n i j xs ys r.1 r.2.1 r.2.2 := by
  fun_induction takeLeast q n xs ys with
  | case1 n x xs y ys ihy ihx =>
    obtain ⟨hx, hxs'⟩ := List.forall_mem_cons.1 hxs
    obtain ⟨hy, hys'⟩ := List.forall_mem_cons.1 hys
    obtain ⟨hlex, hsx'⟩ := List.pairwise_cons.1 hsx
    obtain ⟨-, hsy'⟩ := List.pairwise_cons.1 hsy
    refine .question (hq y x (hamong y hy) (hamong x hx)) (fun hlt => ?_) fun hle => ?_
    · refine (ihy hxs hys' hsx hsy').bind fun r ⟨i, j, h⟩ => .pure ⟨i, j + 1, ?_⟩
      have hle := R'.le_of_lt y x hy hx hlt
      exact h.cons_right (fun z hz => first_le hy hx hxs' hsy hsx hle hz.symm) hlt
        (List.forall_mem_cons.2 ⟨R'.refl x hx, hlex⟩)
    · refine (ihx hxs' hys hsx' hsy).bind fun r ⟨i, j, h⟩ => .pure ⟨i + 1, j, ?_⟩
      exact h.cons_left fun z hz => first_le hx hy hys' hsx hsy hle hz
  | case2 n xs ys hnot =>
    refine .pure ⟨0, 0, takes_nothing ?_⟩
    cases n with
    | zero => exact .inl rfl
    | succ n =>
      cases xs with
      | nil => exact .inr (.inl rfl)
      | cons x xs =>
        cases ys with
        | nil => exact .inr (.inr rfl)
        | cons y ys => exact (hnot n x xs y ys rfl rfl rfl).elim

/-- As many elements are taken as are asked for, if either list has as many. -/
theorem Takes.add_eq (h : Takes R n i j xs ys taken left right) (hx : n ≤ xs.length)
    (hy : n ≤ ys.length) : i + j = n := by
  obtain ⟨hle, heq | hnil | hnil⟩ := h.enough
  · exact heq
  · have := List.drop_eq_nil_iff.1 (h.left_eq.symm.trans hnil)
    omega
  · have := List.drop_eq_nil_iff.1 (h.right_eq.symm.trans hnil)
    omega

end

theorem mem_drop_of_le {i k : Nat} (hle : i ≤ k) (hx : x ∈ xs.drop k) : x ∈ xs.drop i :=
  (List.drop_suffix_drop_left xs hle).subset hx

theorem take_append_middle {i k : Nat} (h : i ≤ k) (xs : List α) :
    xs.take i ++ ((xs.take k).drop i ++ xs.drop k) = xs := by
  have htake : xs.take i = (xs.take k).take i := by rw [List.take_take, Nat.min_eq_left h]
  rw [← List.append_assoc, htake, List.take_append_drop, List.take_append_drop]

theorem flip_consistent_iff : R.flip.Consistent ↔ R.Consistent :=
  ⟨fun h x y hx hy => h y x hy hx, fun h x y hx hy => h y x hy hx⟩

/-- There is an element between two places of a list. -/
theorem exists_between {i k : Nat} (xs : List α) (h : k < i) (hk : k < xs.length) :
    ∃ x ∈ xs, x ∈ xs.take i ∧ x ∈ xs.drop k :=
  ⟨xs[k], List.getElem_mem hk, List.mem_take_iff_getElem.2 ⟨k, by omega, rfl⟩,
    List.mem_drop_iff_getElem.2 ⟨0, by omega, by simp⟩⟩

section

variable {n i j a b : Nat} {low high xs₁ ys₁ xs₂ ys₂ : List α}
  (hlow : Takes R n i j xs ys low xs₁ ys₁)
  (hhigh : Takes R.flip n b a ys.reverse xs.reverse high ys₂ xs₂)
include hlow hhigh

/-- **An element that is taken from both ends contradicts the answers**: it does not come after an
element that is taken from neither, which does not come after one that was said to be less. -/
theorem not_consistent_of_overlap (hxs : ∀ x ∈ xs, R.among x) (hys : ∀ y ∈ ys, R.among y)
    (hi : xs.length - a < i) (hj : j < ys.length - b) : ¬R.Consistent := by
  have hile := hlow.le_left
  obtain ⟨x, hx, hxfront, hxback⟩ := exists_between xs hi (by omega)
  obtain ⟨y, hy, hyback, hyfront⟩ := exists_between ys hj (by omega)
  have hxy : R.le x y := hlow.rest x
    (hlow.perm.mem_iff.2 (List.mem_append_left _ hxfront)) y (.inr (hlow.right_eq ▸ hyfront))
  obtain ⟨z, hz, hzx, hyz⟩ := hhigh.overtakes x
    (by rwa [List.take_reverse, List.mem_reverse])
  have hyz : R.le y z := hyz y (by rwa [hhigh.left_eq, List.drop_reverse, List.mem_reverse])
  have hz := hys z (List.mem_reverse.1 hz)
  exact fun hR => hR z x hz (hxs x hx) hzx
    (R.trans x y z (hxs x hx) (hys y hy) hz hxy hyz)

omit hlow in
/-- What is taken from the back, in the order of the lists. -/
theorem perm_back :
    high.reverse.Perm (xs.drop (xs.length - a) ++ ys.drop (ys.length - b)) := by
  refine (List.reverse_perm _).trans (hhigh.perm.trans ?_)
  rw [List.take_reverse, List.take_reverse]
  exact ((List.reverse_perm _).append (List.reverse_perm _)).trans List.perm_append_comm

variable (hi : i ≤ xs.length - a) (hj : j ≤ ys.length - b)
include hi hj

/-- Nothing is lost between both ends. -/
theorem perm_ends : (low ++ ((xs.take (xs.length - a)).drop i ++
    (ys.take (ys.length - b)).drop j) ++ high.reverse).Perm (xs ++ ys) := by
  classical
  rw [List.perm_iff_count]
  intro z
  have hlowCount := hlow.perm.count_eq z
  have hhighCount := (perm_back hhigh).count_eq z
  have hxsCount := congrArg (List.count z) (take_append_middle hi xs)
  have hysCount := congrArg (List.count z) (take_append_middle hj ys)
  simp only [List.count_append] at *
  omega

/-- What is taken from the front is before the middle and what is taken from the back, and the
middle before that. -/
theorem sorted_ends {middle : List α}
    (hmiddle : (xs.take (xs.length - a)).drop i ++ (ys.take (ys.length - b)).drop j = middle)
    (hsorted : R.Sorted middle) : R.Sorted (low ++ middle ++ high.reverse) := by
  have hleft (z : α) (hz : z ∈ middle ∨ z ∈ high) : z ∈ xs₁ ∨ z ∈ ys₁ := by
    rw [hlow.left_eq, hlow.right_eq]
    rcases hz with hz | hz
    · rw [← hmiddle, List.mem_append, List.drop_take, List.drop_take] at hz
      exact hz.imp List.mem_of_mem_take List.mem_of_mem_take
    · rw [← List.mem_reverse, (perm_back hhigh).mem_iff, List.mem_append] at hz
      exact hz.imp (mem_drop_of_le hi) (mem_drop_of_le hj)
  have hright (z : α) (hz : z ∈ middle) : z ∈ ys₂ ∨ z ∈ xs₂ := by
    rw [← hmiddle, List.mem_append] at hz
    rw [hhigh.left_eq, hhigh.right_eq, List.drop_reverse, List.drop_reverse, List.mem_reverse,
      List.mem_reverse]
    exact hz.symm.imp List.mem_of_mem_drop List.mem_of_mem_drop
  refine ((hlow.sorted.append hsorted fun t ht z hz =>
    hlow.rest t ht z (hleft z (.inl hz))).append hhigh.sorted.of_reverse fun t ht z hz => ?_)
  rw [List.mem_reverse] at hz
  rcases List.mem_append.1 ht with ht | ht
  · exact hlow.rest t ht z (hleft z (.inr hz))
  · exact hhigh.rest z hz t (hright t ht)

/-- What is between both ends, and the ends, are in order if nothing is taken from both. -/
theorem orders_ends (hn : n = xs.length) (hle : xs.length ≤ ys.length)
    (hle' : ys.length ≤ xs.length + 1) :
    R.Orders (xs ++ ys)
      (low ++ ((xs.take (xs.length - a)).drop i ++ (ys.take (ys.length - b)).drop j) ++
        high.reverse) := by
  have hcountLow := hlow.add_eq (by omega) (by omega)
  have hcountHigh := hhigh.add_eq (by rw [List.length_reverse]; omega)
    (by rw [List.length_reverse]; omega)
  have ha := hhigh.le_right
  have hb := hhigh.le_left
  rw [List.length_reverse] at ha hb
  refine ⟨perm_ends hlow hhigh hi hj, sorted_ends hlow hhigh hi hj rfl ?_⟩
  have hone : ((xs.take (xs.length - a)).drop i ++
      (ys.take (ys.length - b)).drop j).length ≤ 1 := by
    rw [List.length_append, List.length_drop, List.length_drop, List.length_take, List.length_take]
    omega
  generalize (xs.take (xs.length - a)).drop i ++ (ys.take (ys.length - b)).drop j = middle at hone
  rcases middle with _ | ⟨z, _ | ⟨w, middle⟩⟩
  · exact .nil
  · exact R.sorted_singleton z
  · simp at hone

end

/-- **Merging from both ends sorts**, if the second list is at most one element longer. -/
theorem meets_mergeFromEnds (hxs : ∀ x ∈ xs, R.among x) (hys : ∀ y ∈ ys, R.among y)
    (hsx : R.Sorted xs) (hsy : R.Sorted ys) (hle : xs.length ≤ ys.length)
    (hle' : ys.length ≤ xs.length + 1) :
    (mergeFromEnds xs ys).Meets R (R.Orders (xs ++ ys)) := by
  have hxs' (x : α) (hx : x ∈ xs.reverse) := hxs x (List.mem_reverse.1 hx)
  have hys' (y : α) (hy : y ∈ ys.reverse) := hys y (List.mem_reverse.1 hy)
  unfold mergeFromEnds
  dsimp only
  refine (meets_takeLeast (decides_less R) (fun _ h => h) xs.length hxs hys hsx hsy).bind
    fun low ⟨i, j, hlow⟩ => ?_
  refine (meets_takeLeast (decides_flip R) (fun _ h => h) xs.length hys' hxs' hsy.reverse
    hsx.reverse).bind fun high ⟨b, a, hhigh⟩ => ?_
  have hi := hlow.le_left
  have hj := hlow.le_right
  have hcountLow := hlow.add_eq (Nat.le_refl _) hle
  have hcountHigh := hhigh.add_eq (by rwa [List.length_reverse])
    (Nat.le_of_eq List.length_reverse.symm)
  simp only [hlow.left_eq, hlow.right_eq, hhigh.left_eq, hhigh.right_eq, List.length_drop,
    List.length_reverse, List.drop_reverse, List.reverse_reverse, List.length_take,
    Nat.sub_sub_self hi, Nat.sub_sub_self hj, Nat.min_eq_left (Nat.sub_le ..)]
  split
  · rename_i h
    exact .pure (orders_ends hlow hhigh h.1 h.2 rfl hle hle')
  · rename_i h
    by_cases hover : xs.length - a < i
    · exact not_consistent_of_overlap hlow hhigh hxs hys hover (by omega)
    · -- seen from the back, it is the first list of which an element is taken from both ends
      have hlow' : Takes R.flip.flip xs.length i j xs.reverse.reverse ys.reverse.reverse low.1
          low.2.1 low.2.2 := by rwa [List.reverse_reverse, List.reverse_reverse]
      rw [Contest.Meets, ← flip_consistent_iff]
      refine not_consistent_of_overlap hhigh hlow' hys' hxs' ?_ ?_
      all_goals
        rw [List.length_reverse]
        omega

/-! ## Short lists -/

theorem meets_half (long : Bool) (hxs : ∀ x ∈ xs, R.among x) :
    (half long xs).Meets R (R.Orders xs) := by
  unfold half
  split
  · rename_i p q r s xs
    split
    · obtain ⟨hp, hxs⟩ := List.forall_mem_cons.1 hxs
      obtain ⟨hq, hxs⟩ := List.forall_mem_cons.1 hxs
      obtain ⟨hr, hxs⟩ := List.forall_mem_cons.1 hxs
      obtain ⟨hs, hxs⟩ := List.forall_mem_cons.1 hxs
      refine (meets_four hp hq hr hs).bind fun ys hys => ?_
      have hfour : ∀ y ∈ [p, q, r, s], R.among y := by simp [hp, hq, hr, hs]
      refine (meets_insertAll hxs (hys.among hfour) hys.sorted).imp fun zs hzs => ?_
      exact ⟨hzs.perm.trans (hys.perm.append_right xs), hzs.sorted⟩
    · exact meets_byInsertion hxs
  · exact meets_byInsertion hxs

/-- **Sorting a short list sorts.** -/
theorem meets_short (hxs : ∀ x ∈ xs, R.among x) : (short xs).Meets R (R.Orders xs) := by
  have htake (z : α) (hz : z ∈ xs.take (xs.length / 2)) := hxs z (List.mem_of_mem_take hz)
  have hdrop (z : α) (hz : z ∈ xs.drop (xs.length / 2)) := hxs z (List.mem_of_mem_drop hz)
  unfold short
  refine (meets_half _ htake).bind fun ys hys => (meets_half _ hdrop).bind fun zs hzs => ?_
  have hlength := hys.perm.length_eq
  have hlength' := hzs.perm.length_eq
  rw [List.length_take] at hlength
  rw [List.length_drop] at hlength'
  refine (meets_mergeFromEnds (hys.among htake) (hzs.among hdrop) hys.sorted hzs.sorted (by omega)
    (by omega)).imp fun ws hws => ⟨hws.perm.trans ?_, hws.sorted⟩
  have hparts := hys.perm.append hzs.perm
  rwa [List.take_append_drop] at hparts

end Contest

end LuaGraph
