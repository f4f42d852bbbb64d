import LuaGraph.Proofs.Binary64.Integers
import Mathlib.Order.Monotone.Basic

/-!
# Exact values

Magnitudes are ordered as their exact values, and floats as theirs. An integer is rounded to an
integer, and never past another value.

Values are given in units of the least positive float, so that all of them are integers. An infinity
stands at `2 ^ 1024`, past everything that is finite.

Results: `units_strictMono`, `scale_dvd_units_nearest`, `compare_place`.
-/

namespace LuaGraph.Binary64

/-- **A greater magnitude stands for a greater value.** -/
theorem units_strictMono : StrictMono units := by
  refine strictMono_nat_of_lt_succ fun m => ?_
  obtain ⟨s, q, rfl, hq, hs⟩ := exists_steps m
  rw [Nat.add_assoc, units_add (Nat.le_of_lt hq) hs,
    units_add (Nat.succ_le_of_lt hq) fun h => Nat.le_succ_of_le (hs h)]
  exact Nat.mul_lt_mul_of_pos_right q.lt_succ_self (Nat.two_pow_pos s)

/-! ## Rounded integers -/

theorem nearest_mul_scale (n : Nat) : nearest (n * scale) scale = nearest n 1 := by
  have hmul := nearest_mul_mul scale_pos n 1
  rwa [Nat.one_mul] at hmul

/-- An integer of 53 bits has a magnitude of its own: it is a number of steps in its binade. -/
theorem exists_units_eq {n : Nat} (h : n ≤ 2 ^ 53) : ∃ m < infinity, units m = n * scale := by
  rcases Nat.eq_zero_or_pos n with rfl | hpos
  · exact ⟨0, by decide, (Nat.zero_mul scale).symm⟩
  have hle := Nat.log2_self_le (Nat.ne_of_gt hpos)
  have hlt := Nat.lt_log2_self (n := n)
  generalize n.log2 = e at hle hlt
  have he : e ≤ 53 := (Nat.pow_le_pow_iff_right (by decide)).1 (Nat.le_trans hle h)
  have hsteps : binade ≤ n * 2 ^ (52 - e) ∧ n * 2 ^ (52 - e) ≤ 2 * binade := by
    rcases Nat.lt_or_eq_of_le he with he | rfl
    · have hbinade : 2 ^ e * 2 ^ (52 - e) = binade := by
        rw [← Nat.pow_add, Nat.add_sub_of_le (by omega)]
        rfl
      have hlow := Nat.mul_le_mul_right (2 ^ (52 - e)) hle
      have hhigh := Nat.mul_le_mul_right (2 ^ (52 - e)) (Nat.le_of_lt hlt)
      rw [Nat.pow_succ, Nat.mul_right_comm] at hhigh
      omega
    · unfold binade
      omega
  refine ⟨(1074 - (52 - e)) * binade + n * 2 ^ (52 - e), ?_, ?_⟩
  · have hspacing := Nat.mul_le_mul_right binade (show 1074 - (52 - e) ≤ 1074 by omega)
    have : 1074 * binade + 2 * binade < infinity := by decide
    omega
  · rw [units_add hsteps.2 fun _ => hsteps.1, Nat.mul_assoc, ← Nat.pow_add,
      Nat.add_sub_of_le (by omega), scale]

/-- **An integer of 53 bits is not rounded.** -/
theorem units_nearest {n : Nat} (h : n ≤ 2 ^ 53) : units (nearest n 1) = n * scale := by
  obtain ⟨m, hm, hunits⟩ := exists_units_eq h
  rw [← nearest_mul_scale, ← hunits, nearest_units hm]

/-- Of two integers of 53 bits the greater one has the greater magnitude. -/
theorem nearest_lt {m n : Nat} (hlt : m < n) (h : n ≤ 2 ^ 53) : nearest m 1 < nearest n 1 := by
  rw [← units_strictMono.lt_iff_lt, units_nearest h, units_nearest (by omega)]
  exact Nat.mul_lt_mul_of_pos_right hlt scale_pos

/-- **Rounding sets an integer of 53 bits apart from all others.** -/
theorem place_ofInt_lt {m n : Int} (hlt : m < n) (h : m.natAbs < 2 ^ 53 ∨ n.natAbs < 2 ^ 53) :
    place (ofInt m) < place (ofInt n) := by
  -- Next to the one of 53 bits there is an integer that is not rounded either.
  have hnext {a : Int} (ha : a.natAbs ≤ 2 ^ 53) (ha' : (a + 1).natAbs ≤ 2 ^ 53) :
      place (ofInt a) < place (ofInt (a + 1)) := by
    rw [place_ofInt, place_ofInt]
    by_cases hneg : a < 0
    · have hlt := nearest_lt (show (a + 1).natAbs < a.natAbs by omega) ha
      rw [if_pos hneg]
      split <;> omega
    · have hlt := nearest_lt (show a.natAbs < (a + 1).natAbs by omega) ha'
      rw [if_neg hneg, if_neg (by omega)]
      omega
  rcases h with h | h
  · exact Int.lt_of_lt_of_le (hnext (by omega) (by omega)) (place_ofInt_mono hlt)
  · have := hnext (a := n - 1) (by omega) (by omega)
    rw [Int.sub_add_cancel] at this
    exact Int.lt_of_le_of_lt (place_ofInt_mono (by omega)) this

/-- The magnitude of `2 ^ 63`. -/
theorem units_beyond : units (0x43e * binade) = 2 ^ 63 * scale := by decide +kernel

/-- The integers of 64 bits are not rounded beyond `2 ^ 63`. -/
theorem nearest_le {n : Nat} (h : n ≤ 2 ^ 63) : nearest n 1 ≤ 0x43e * binade := by
  have hself := nearest_units (m := 0x43e * binade) (by decide)
  rw [units_beyond, nearest_mul_scale] at hself
  rw [← hself]
  exact nearest_mono h 1

theorem nearest_lt_infinity {n : Nat} (h : n ≤ 2 ^ 63) : nearest n 1 < infinity :=
  Nat.lt_of_le_of_lt (nearest_le h) (by decide)

/-- **An integer is rounded to an integer.** Where the spacing is one at most it is exact, and where
it is more, all multiples of the spacing are integers. -/
theorem scale_dvd_units_nearest {n : Nat} (h : n ≤ 2 ^ 63) : scale ∣ units (nearest n 1) := by
  have hfinite := nearest_lt_infinity h
  rw [nearest_eq, Nat.div_one, Nat.one_mul] at hfinite ⊢
  rw [Nat.min_eq_right (by omega)]
  have hle := roundHalfEven_le (n * scale) (2 ^ spacing (n * scale))
  have hge := div_le_roundHalfEven (n * scale) (2 ^ spacing (n * scale))
  have hlt := div_spacing_lt (n * scale)
  have hbinade : 2 ^ 52 = binade := rfl
  rw [units_add (by omega) fun hs => by have := le_div_spacing hs; omega]
  generalize spacing (n * scale) = s
  obtain ⟨e, he⟩ : ∃ e, scale = 2 ^ e := ⟨1074, rfl⟩
  rw [he]
  rcases Nat.le_total e s with hs | hs
  · exact Nat.dvd_mul_left_of_dvd (Nat.pow_dvd_pow 2 hs) _
  · have hexact : n * 2 ^ e = n * 2 ^ (e - s) * 2 ^ s := by
      rw [Nat.mul_assoc, Nat.pow_sub_mul_pow 2 hs]
    rw [hexact, roundHalfEven_mul (Nat.two_pow_pos s), ← hexact]
    exact Nat.dvd_mul_left _ n

/-- An integer below a magnitude after rounding was below it before. -/
theorem lt_units_of_nearest_lt {n m : Nat} (hn : n ≤ 2 ^ 63) (hm : m ≤ infinity)
    (h : nearest n 1 < m) : n * scale < units m := by
  refine Nat.lt_of_not_le fun hle => ?_
  rcases Nat.lt_or_eq_of_le hm with hlt | rfl
  · have hmono := nearest_mono hle scale
    rw [nearest_units hlt, nearest_mul_scale] at hmono
    exact Nat.not_lt.2 hmono h
  · have hbeyond := units_strictMono (show 0x43e * binade < infinity by decide)
    rw [units_beyond] at hbeyond
    exact Nat.not_lt.2 (Nat.le_trans hle (Nat.mul_le_mul_right scale hn)) hbeyond

/-- An integer above a magnitude after rounding was above it before. -/
theorem units_lt_of_lt_nearest {n m : Nat} (h : m < nearest n 1) : units m < n * scale := by
  refine Nat.lt_of_not_le fun hle => ?_
  have hmono := nearest_mono hle scale
  rw [nearest_units (Nat.lt_of_lt_of_le h (nearest_le_infinity n 1)), nearest_mul_scale] at hmono
  exact Nat.not_lt.2 hmono h

/-! ## Values -/

/-- The value of a float in units. -/
def value (x : Float) : Int :=
  if negative x then -(units (magnitude x) : Int) else (units (magnitude x) : Int)

/-- **Floats are ordered as their values.** -/
theorem compare_place (x y : Float) :
    compare (place x) (place y) = compare (value x) (value y) := by
  have hzero : units 0 = 0 := rfl
  have hlt (m n : Nat) : units m < units n ↔ m < n := units_strictMono.lt_iff_lt
  have hx := hlt 0 (magnitude x)
  have hy := hlt 0 (magnitude y)
  have hxy := hlt (magnitude x) (magnitude y)
  have hyx := hlt (magnitude y) (magnitude x)
  have hiff : (place x < place y ↔ value x < value y) ∧
      (place y < place x ↔ value y < value x) := by
    unfold place value
    cases negative x <;> cases negative y <;> simp only [if_true, Bool.false_eq_true, if_false] <;>
      omega
  rcases Int.lt_trichotomy (place x) (place y) with h | h | h
  · rw [Int.compare_eq_lt.2 h, Int.compare_eq_lt.2 (hiff.1.1 h)]
  · rw [Int.compare_eq_eq.2 h, Int.compare_eq_eq.2 (by omega)]
  · rw [Int.compare_eq_gt.2 h, Int.compare_eq_gt.2 (hiff.2.1 h)]

end LuaGraph.Binary64
