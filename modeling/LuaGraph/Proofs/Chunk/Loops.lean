import LuaGraph.Chunk.Run
import LuaGraph.Proofs.Binary64.Values
import Mathlib.Data.Nat.Find

/-!
# Loops over integers

A loop (`exec_for`) that starts at an integer and moves by an integer counts exactly: its body is
run for the start, then for the start and one step, and so on, until the counter is past the limit
or no integer of 64 bits any more. But the counter and the limit are compared as floats, and beyond
`2 ^ 53` two integers may be the same float. Then the loop also goes on for counters past the limit
that are the same float as the limit.

Out of scope: loops whose start or step is a float.

Headline: **`loop_integer`**.
-/

namespace LuaGraph.Chunk.Run

open Binary64 Number

/-! ## Counters -/

/-- The counter after `k` rounds. -/
def counter (start step : Int) (k : Nat) : Int := start + k * step

/-- The counters of the first `n` rounds. -/
def counters (start step : Int) (n : Nat) : List Int := (List.range n).map (counter start step)

/-- Runs a body for these counters, one after the other. -/
def runAll (body : Value → Run Unit) (is : List Int) : Run Unit :=
  is.forM fun i => body (.ofInt64 (Int64.ofInt i))

/-- A counter that moves by `step` is not past the limit. -/
def NotPast (step limit i : Int) : Prop := (0 < step ∧ i ≤ limit) ∨ (step < 0 ∧ limit ≤ i)

/-- A counter that moves by `step` is not past the limit, or the same float. -/
def NotPastFloat (step limit i : Int) : Prop :=
  NotPast step limit i ∨ equal (ofInt i) (ofInt limit) = true

/-- There are `n` rounds: these are the ones in which 64 bits hold the counter and it goes on. -/
def Rounds (start step : Int) (goesOn : Int → Prop) (n : Nat) : Prop :=
  ∀ k, k < n ↔ fits (counter start step k) = true ∧ goesOn (counter start step k)

/-- Some counter past the limit is the same float as the limit. -/
def Blurs (start limit step : Int) : Prop :=
  ∃ k, fits (counter start step k) = true ∧ ¬NotPast step limit (counter start step k) ∧
    equal (ofInt (counter start step k)) (ofInt limit) = true

section

variable {start limit step : Int} {n : Nat} {goesOn : Int → Prop}

@[simp] theorem counter_zero (start step : Int) : counter start step 0 = start := by
  simp [counter]

theorem counter_succ (start step : Int) (k : Nat) :
    counter start step (k + 1) = counter (start + step) step k := by
  unfold counter
  rw [Int.natCast_succ, Int.add_mul, Int.one_mul, Int.add_comm (k * step), Int.add_assoc]

theorem counters_succ (start step : Int) (n : Nat) :
    counters start step (n + 1) = start :: counters (start + step) step n := by
  unfold counters
  rw [List.range_succ_eq_map, List.map_cons, List.map_map, counter_zero]
  exact congrArg _ (List.map_congr_left fun k _ => counter_succ start step k)

theorem runAll_cons (body : Value → Run Unit) (i : Int) (is : List Int) (m : Machine) :
    runAll body (i :: is) m = match body (.ofInt64 (Int64.ofInt i)) m with
      | .error e m => .error e m
      | .ok () m => runAll body is m := by
  show EStateM.bind _ _ m = _
  unfold EStateM.bind
  cases body (.ofInt64 (Int64.ofInt i)) m <;> rfl

theorem length_counters (start step : Int) (n : Nat) : (counters start step n).length = n := by
  simp [counters]

/-- A counter is not past a later one. -/
theorem notPast_counter (hstep : step ≠ 0) (start : Int) {j k : Nat} (h : j ≤ k) :
    NotPast step (counter start step k) (counter start step j) := by
  unfold NotPast counter
  rcases Int.lt_or_gt_of_ne hstep with hneg | hpos
  · exact .inr ⟨hneg, Int.add_le_add_left
      (Int.mul_le_mul_of_nonpos_right (Int.ofNat_le.2 h) (Int.le_of_lt hneg)) start⟩
  · exact .inl ⟨hpos, Int.add_le_add_left
      (Int.mul_le_mul_of_nonneg_right (Int.ofNat_le.2 h) (Int.le_of_lt hpos)) start⟩

/-- At some time 64 bits do not hold the counter. -/
theorem not_fits_counter (hstep : step ≠ 0) (start : Int) (hstart : fits start = true) :
    fits (counter start step (2 ^ 64)) = false := by
  unfold fits counter at *
  simp only [decide_eq_true_eq, decide_eq_false_iff_not] at *
  omega

/-! ## Rounds -/

/-- After a first round there is one round less. -/
theorem Rounds.tail (h : Rounds start step goesOn (n + 1)) :
    Rounds (start + step) step goesOn n := by
  intro k
  rw [← counter_succ, ← h (k + 1), Nat.add_lt_add_iff_right]

/-- The number of rounds is determined. -/
theorem Rounds.unique {m : Nat} (h : Rounds start step goesOn n) (h' : Rounds start step goesOn m) :
    n = m := by
  have hiff (k : Nat) : k < n ↔ k < m := (h k).trans (h' k).symm
  have hn := hiff n
  have hm := hiff m
  omega

/-- **A loop ends**, if it goes on only where it went on before: at some time 64 bits do not hold
the counter. -/
theorem exists_rounds (hstep : step ≠ 0) (hstart : fits start = true)
    (hback : ∀ i j, NotPast step j i → goesOn j → goesOn i) : ∃ n, Rounds start step goesOn n := by
  classical
  have hends : ∃ k, ¬(fits (counter start step k) = true ∧ goesOn (counter start step k)) :=
    ⟨2 ^ 64, fun h => by simp [not_fits_counter hstep start hstart] at h⟩
  refine ⟨Nat.find hends, fun k => ?_⟩
  rw [Nat.lt_find_iff]
  constructor
  · exact fun h => not_not.1 (h k (Nat.le_refl k))
  · rintro ⟨hfits, hgoes⟩ j hj
    have hpast := notPast_counter hstep start hj
    have hzero := notPast_counter hstep start (Nat.zero_le j)
    refine not_not.2 ⟨?_, hback _ _ hpast hgoes⟩
    rw [counter_zero] at hzero
    unfold fits at *
    unfold NotPast at *
    simp only [decide_eq_true_eq] at *
    omega

/-- **A loop runs its body for all its counters**, in their order. -/
theorem integerLoop_eq {limit : Float} (body : Value → Run Unit) (hstep : step ≠ 0)
    (hstart : fits start = true)
    (h : Rounds start step (fun i => withinLimitInt i step limit = true) n) :
    integerLoop body limit step start = runAll body (counters start step n) := by
  induction n generalizing start with
  | zero =>
    have hfirst := (h 0).not.1 (Nat.lt_irrefl 0)
    rw [counter_zero] at hfirst
    funext m
    rw [integerLoop, if_neg fun hwithin => hfirst ⟨hstart, hwithin⟩]
    rfl
  | succ n ih =>
    have hfirst := (h 0).1 n.succ_pos
    rw [counter_zero] at hfirst
    funext m
    rw [integerLoop, if_pos hfirst.2, counters_succ, runAll_cons]
    cases body (.ofInt64 (Int64.ofInt start)) m with
    | error e m => rfl
    | ok u m =>
      dsimp only
      by_cases hnext : fits (start + step) = true
      · rw [dif_pos ⟨hstep, of_decide_eq_true hnext⟩, ih hnext h.tail]
      · obtain rfl : n = 0 := by
          refine Nat.eq_zero_of_not_pos fun hpos => hnext ?_
          rw [← counter_zero (start + step) step]
          exact ((h.tail 0).1 hpos).1
        rw [dif_neg fun hfits => hnext (decide_eq_true hfits.2)]
        rfl

/-! ## Comparing as floats -/

/-- **The loop goes on for a counter that is not past the limit, and for one that is the same float
as the limit.** -/
theorem withinLimitInt_iff (hstep : step ≠ 0) (i : Int) :
    withinLimitInt i step (ofInt limit) = true ↔ NotPastFloat step limit i := by
  have hup := fun h : i ≤ limit => place_ofInt_mono h
  have hdown := fun h : limit ≤ i => place_ofInt_mono h
  simp only [withinLimitInt, Bool.or_eq_true, Bool.and_eq_true, decide_eq_true_eq, atMost_iff,
    isNaN_ofInt, true_and]
  unfold NotPastFloat NotPast
  simp only [equal_iff, isNaN_ofInt, true_and]
  omega

/-- The loop goes on at all counters before one that it goes on at. -/
theorem NotPastFloat.back {i j : Int} (hpast : NotPast step j i) (h : NotPastFloat step limit j) :
    NotPastFloat step limit i := by
  unfold NotPastFloat NotPast at *
  simp only [equal_iff, isNaN_ofInt, true_and] at *
  have hup := fun h : i ≤ j => place_ofInt_mono h
  have hdown := fun h : j ≤ i => place_ofInt_mono h
  have hup' := fun h : limit ≤ i => place_ofInt_mono h
  have hdown' := fun h : i ≤ limit => place_ofInt_mono h
  omega

/-- A limit of 53 bits is a float that no other integer is. -/
theorem not_blurs (hstep : step ≠ 0) (h : limit.natAbs < 2 ^ 53) : ¬Blurs start limit step := by
  rintro ⟨k, -, hpast, hequal⟩
  have hplace := (equal_iff.1 hequal).2.2
  rcases Int.lt_trichotomy (counter start step k) limit with hlt | heq | hlt
  · have := place_ofInt_lt hlt (.inr h)
    omega
  · unfold NotPast at hpast
    omega
  · have := place_ofInt_lt hlt (.inl h)
    omega

/-- A body that keeps its counters: it opens a scope for each of them. -/
def keep (v : Value) : Run Unit := fun m => .ok () { m with scopes := [("", v)] :: m.scopes }

/-- After the rounds there is a scope for each counter. -/
theorem run_keep (is : List Int) (m : Machine) :
    ∃ m', runAll keep is m = .ok () m' ∧ m'.scopes.length = m.scopes.length + is.length := by
  induction is generalizing m with
  | nil => exact ⟨m, rfl, rfl⟩
  | cons i is ih =>
    obtain ⟨m', hrun, hlength⟩ :=
      ih { m with scopes := [("", .ofInt64 (Int64.ofInt i))] :: m.scopes }
    refine ⟨m', (runAll_cons keep i is m).trans hrun, ?_⟩
    rw [hlength, List.length_cons, List.length_cons]
    omega

/-- Bodies tell numbers of rounds apart. -/
theorem eq_of_runAll_counters {n m : Nat}
    (h : ∀ body, runAll body (counters start step n) = runAll body (counters start step m)) :
    n = m := by
  obtain ⟨m₁, hrun₁, hlength₁⟩ := run_keep (counters start step n) ⟨.empty, 0, []⟩
  obtain ⟨m₂, hrun₂, hlength₂⟩ := run_keep (counters start step m) ⟨.empty, 0, []⟩
  rw [h keep, hrun₂] at hrun₁
  cases hrun₁
  rw [hlength₁, length_counters, length_counters] at hlength₂
  omega

/-- More rounds are gone through if the loop goes on for more counters. -/
theorem Rounds.eq_iff {m : Nat} {goesOn' : Int → Prop} (h : Rounds start step goesOn n)
    (h' : Rounds start step goesOn' m) :
    n = m ↔ ∀ k, fits (counter start step k) = true →
      (goesOn (counter start step k) ↔ goesOn' (counter start step k)) := by
  constructor
  · rintro rfl k hfits
    have hiff := (h k).symm.trans (h' k)
    simpa only [hfits, true_and] using hiff
  · intro hiff
    refine h.unique fun k => ?_
    rw [h' k]
    exact and_congr_right fun hfits => (hiff k hfits).symm

end

/-! ## Loops -/

section

variable {start limit step : Int64}

theorem fits_toInt (i : Int64) : fits i.toInt = true :=
  decide_eq_true ⟨i.le_toInt, i.toInt_lt⟩

/-- A loop over integers has the rounds in which its counter is not past the limit, or the same
float. -/
theorem loop_eq (hstep : step ≠ 0) {n : Nat}
    (h : Rounds start.toInt step.toInt (NotPastFloat step.toInt limit.toInt) n)
    (body : Value → Run Unit) :
    loop body (.integer start) (.integer limit) (.integer step) =
      runAll body (counters start.toInt step.toInt n) := by
  have hstep' : step.toInt ≠ 0 := fun hzero => hstep (Int64.toInt_inj.1 hzero)
  have hrounds : Rounds start.toInt step.toInt
      (fun i => withinLimitInt i step.toInt (ofInt limit.toInt) = true) n := by
    simpa only [withinLimitInt_iff hstep'] using h
  unfold loop
  dsimp only
  rw [if_neg hstep]
  exact integerLoop_eq body hstep' (fits_toInt start) hrounds

/-- **A loop over integers runs its body exactly for the counters up to the limit**, in their order,
unless some counter past the limit is the same float as the limit; with a limit of 53 bits none is.
In any case it runs the body for the counters up to the limit first, and then for no others than
these. -/
theorem loop_integer (hstep : step ≠ 0) :
    ∃ n m, n ≤ m ∧ Rounds start.toInt step.toInt (NotPast step.toInt limit.toInt) n ∧
      Rounds start.toInt step.toInt (NotPastFloat step.toInt limit.toInt) m ∧
      (∀ body, loop body (.integer start) (.integer limit) (.integer step) =
        runAll body (counters start.toInt step.toInt m)) ∧
      ((∀ body, loop body (.integer start) (.integer limit) (.integer step) =
        runAll body (counters start.toInt step.toInt n)) ↔
          ¬Blurs start.toInt limit.toInt step.toInt) ∧
      (limit.toInt.natAbs < 2 ^ 53 → ¬Blurs start.toInt limit.toInt step.toInt) := by
  have hstep' : step.toInt ≠ 0 := fun hzero => hstep (Int64.toInt_inj.1 hzero)
  obtain ⟨n, hn⟩ : ∃ n, Rounds start.toInt step.toInt (NotPast step.toInt limit.toInt) n := by
    refine exists_rounds hstep' (fits_toInt start) fun i j hij hj => ?_
    unfold NotPast at *
    omega
  obtain ⟨m, hm⟩ : ∃ m, Rounds start.toInt step.toInt (NotPastFloat step.toInt limit.toInt) m :=
    exists_rounds hstep' (fits_toInt start) fun _ _ hij hj => hj.back hij
  have hle : n ≤ m := by
    refine Nat.le_of_not_lt fun hlt => ?_
    obtain ⟨hfits, hpast⟩ := (hn m).1 hlt
    exact Nat.lt_irrefl m ((hm m).2 ⟨hfits, .inl hpast⟩)
  have hloop := loop_eq hstep hm
  have hexact : (∀ body, loop body (.integer start) (.integer limit) (.integer step) =
      runAll body (counters start.toInt step.toInt n)) ↔ n = m := by
    simp only [hloop]
    exact ⟨fun h => (eq_of_runAll_counters h).symm, fun h _ => h ▸ rfl⟩
  refine ⟨n, m, hle, hn, hm, hloop, ?_, not_blurs hstep'⟩
  rw [hexact, hn.eq_iff hm]
  unfold Blurs NotPastFloat
  push Not
  refine forall_congr' fun k => forall_congr' fun _ => ?_
  by_cases hpast : NotPast step.toInt limit.toInt (counter start.toInt step.toInt k) <;>
    simp [hpast]

/-- Down to the least integer: the next counter is past the limit, and no integer of 64 bits. -/
theorem loop_integer_least :
    (-2 : Int64) ≠ 0 ∧ ∀ body, loop body (.integer (-9223372036854775805))
      (.integer (-9223372036854775808)) (.integer (-2)) =
        runAll body [-9223372036854775805, -9223372036854775807] := by
  have hstep : (-2 : Int64) ≠ 0 := by decide
  refine ⟨hstep, ?_⟩
  obtain ⟨n, -, -, hn, -, -, hexact, -⟩ :=
    @loop_integer (-9223372036854775805) (-9223372036854775808) (-2) hstep
  have hrounds : Rounds (-9223372036854775805) (-2) (NotPast (-2) (-9223372036854775808)) 2 := by
    intro k
    unfold fits NotPast counter
    rw [decide_eq_true_eq]
    omega
  obtain rfl : n = 2 := hn.unique hrounds
  refine hexact.2 ?_
  rintro ⟨k, hfits, hpast, -⟩
  refine hpast (.inr ⟨by decide, ?_⟩)
  exact (of_decide_eq_true hfits).1

/-- With the limit `2 ^ 53` a loop that starts there goes on for one counter more, and no further.
-/
theorem rounds_blurred : Rounds 9007199254740992 1 (NotPastFloat 1 9007199254740992) 2 := by
  have hsame : equal (ofInt 9007199254740993) (ofInt 9007199254740992) = true := by
    decide +kernel
  have hapart : place (ofInt 9007199254740992) < place (ofInt 9007199254740994) := by
    decide +kernel
  intro k
  unfold fits NotPastFloat NotPast counter
  rw [decide_eq_true_eq]
  constructor
  · intro hk
    obtain rfl | rfl : k = 0 ∨ k = 1 := by omega
    · exact ⟨by decide, .inl (.inl ⟨by decide, by decide⟩)⟩
    · exact ⟨by decide, .inr hsame⟩
  · rintro ⟨-, hpast | hequal⟩
    · omega
    · refine Nat.lt_of_not_le fun hk => ?_
      have hle := place_ofInt_mono
        (show 9007199254740994 ≤ 9007199254740992 + (k : Int) * 1 by omega)
      have hplace := (equal_iff.1 hequal).2.2
      omega

/-- **Past the limit `2 ^ 53` there is a round for `2 ^ 53 + 1`**, which is the same float. -/
theorem exists_round_past_limit :
    Rounds 9007199254740992 1 (NotPast 1 9007199254740992) 1 ∧
    (∀ body, loop body (.integer 9007199254740992) (.integer 9007199254740992) (.integer 1) =
      runAll body [9007199254740992, 9007199254740993]) ∧
    ∃ body, loop body (.integer 9007199254740992) (.integer 9007199254740992) (.integer 1) ≠
      runAll body (counters 9007199254740992 1 1) := by
  have hexact : Rounds 9007199254740992 1 (NotPast 1 9007199254740992) 1 := by
    intro k
    unfold fits NotPast counter
    rw [decide_eq_true_eq]
    omega
  have hstart : (9007199254740992 : Int64).toInt = 9007199254740992 := by decide
  have hloop (body : Value → Run Unit) :
      loop body (.integer 9007199254740992) (.integer 9007199254740992) (.integer 1) =
        runAll body [9007199254740992, 9007199254740993] := by
    rw [loop_eq (n := 2) (by decide) (by rw [hstart]; exact rounds_blurred), hstart]
    rfl
  refine ⟨hexact, hloop, ?_⟩
  by_contra hall
  push Not at hall
  have heq : 2 = 1 := @eq_of_runAll_counters 9007199254740992 1 2 1
    fun body => (hloop body).symm.trans (hall body)
  cases heq

end

end LuaGraph.Chunk.Run
