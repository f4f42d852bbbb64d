import LuaGraph.Proofs.Binary64.Values
import LuaGraph.Proofs.Graph.Order

/-!
# Numbers by their exact values

Numbers are compared (`compare_numbers`) as floats, though an integer may be rounded on the way.
Among keys the answer is right all the same: a float that is a key equals no 64-bit integer, so
rounding never carries an integer past it, and onto it only if it is `2 ^ 63`.

Result: **`Number.order_eq_compare_value`**.
-/

namespace LuaGraph

namespace Binary64

/-! ## Integers and floats -/

/-- A float that is a key is no integer of 64 bits. -/
theorem not_fits {x : Float} (hx : (Number.float x).canonical = .float x)
    (hfinite : magnitude x < infinity) {k : Nat} (hk : units (magnitude x) = k * scale) :
    ¬Number.fits (if negative x then -(k : Int) else k) := by
  have hint : toInt? x = some (if negative x then -(k : Int) else k) := by
    unfold toInt?
    dsimp only
    rw [if_neg (Nat.not_le.2 hfinite), hk, Nat.mul_mod_left, if_pos rfl,
      Nat.mul_div_cancel _ scale_pos]
  intro hfits
  rw [Number.canonical, hint] at hx
  dsimp only at hx
  rw [if_pos hfits] at hx
  cases hx

/-- **What an integer is rounded to is a key only if it is `2 ^ 63`.** -/
theorem eq_of_nearest_eq {x : Float} (hx : (Number.float x).canonical = .float x) {n : Nat}
    (hn : n ≤ 2 ^ 63) (h : nearest n 1 = magnitude x) :
    negative x = false ∧ units (magnitude x) = 2 ^ 63 * scale := by
  obtain ⟨k, hk⟩ := scale_dvd_units_nearest hn
  have hle := units_strictMono.monotone (nearest_le hn)
  rw [units_beyond, hk, Nat.mul_comm] at hle
  have hle := Nat.le_of_mul_le_mul_right hle scale_pos
  have hnot := not_fits hx (h ▸ nearest_lt_infinity hn) (k := k) (by rw [← h, hk, Nat.mul_comm])
  unfold Number.fits at hnot
  rw [decide_eq_true_eq] at hnot
  rw [← h, hk, Nat.mul_comm]
  cases hneg : negative x with
  | true =>
    rw [hneg, if_pos rfl] at hnot
    omega
  | false =>
    rw [hneg, if_neg Bool.false_ne_true] at hnot
    obtain rfl : k = 2 ^ 63 := by omega
    exact ⟨rfl, rfl⟩

/-- The order of a 64-bit integer and a float that is a key is the same before rounding and after,
except that an integer can be rounded to the float above it. -/
theorem value_of_place_ofInt {n : Int} {x : Float} (hlo : -2 ^ 63 ≤ n) (hhi : n < 2 ^ 63)
    (hnan : isNaN x = false) (hx : (Number.float x).canonical = .float x) :
    (place (ofInt n) ≤ place x → n * scale < value x) ∧
      (place x < place (ofInt n) → value x < n * scale) := by
  have hzero := place_ne_zero hx
  have hn : n.natAbs ≤ 2 ^ 63 := by omega
  have hbelow := lt_units_of_nearest_lt hn (show magnitude x ≤ infinity by simpa [isNaN] using hnan)
  have habove := units_lt_of_lt_nearest (n := n.natAbs) (m := magnitude x)
  have hlevel := eq_of_nearest_eq hx hn
  have hpositive : 0 < magnitude x → 0 < units (magnitude x) := fun h => units_strictMono h
  have hscale := scale_pos
  have hlt : 0 ≤ n → n.natAbs * scale < 2 ^ 63 * scale := fun h =>
    Nat.mul_lt_mul_of_pos_right (by omega) hscale
  have hneg : n < 0 → 0 < n.natAbs * scale := fun h => Nat.mul_pos (by omega) hscale
  have hmul : n * scale = if n < 0 then -((n.natAbs * scale : Nat) : Int)
      else ((n.natAbs * scale : Nat) : Int) := by
    rw [Int.natCast_mul]
    split
    · rw [← Int.neg_mul, Int.ofNat_natAbs_of_nonpos (by omega), Int.neg_neg]
    · rw [Int.natAbs_of_nonneg (by omega)]
  rw [hmul, place_ofInt]
  unfold place at hzero ⊢
  unfold value
  generalize n.natAbs * scale = exact at *
  generalize units (magnitude x) = u at *
  generalize nearest n.natAbs 1 = rounded at *
  cases hs : negative x with
  | false =>
    have hlevel (h : rounded = magnitude x) := (hlevel h).2
    rw [hs, if_neg Bool.false_ne_true] at hzero
    simp only [Bool.false_eq_true, if_false]
    split <;> omega
  | true =>
    have hlevel : rounded ≠ magnitude x := fun h =>
      Bool.false_ne_true ((hlevel h).1.symm.trans hs)
    rw [hs, if_pos rfl] at hzero
    simp only [if_true]
    split <;> omega

end Binary64

/-! ## Numbers -/

namespace Number

open Binary64

variable {a b : Number} {i : Int64} {x : Float}

/-- The value of a number in units. -/
def value : Number → Int
  | integer i => i.toInt * scale
  | float x => Binary64.value x

/-- An integer comes before the float that it is rounded to. -/
theorem compare_value_integer (hnan : Binary64.isNaN x = false)
    (hx : (float x).canonical = float x) :
    (compare (place (ofInt i.toInt)) (place x)).then .lt =
      compare (value (integer i)) (value (float x)) := by
  obtain ⟨hlt, hgt⟩ := value_of_place_ofInt i.le_toInt i.toInt_lt hnan hx
  rcases Int.lt_or_le (place x) (place (ofInt i.toInt)) with h | h
  · rw [Int.compare_eq_gt.2 h]
    exact (Int.compare_eq_gt.2 (hgt h)).symm
  · have hle : (compare (place (ofInt i.toInt)) (place x)).then .lt = .lt := by
      rcases Int.lt_or_eq_of_le h with h | h
      · rw [Int.compare_eq_lt.2 h]
        rfl
      · rw [Int.compare_eq_eq.2 h]
        rfl
    rw [hle]
    exact (Int.compare_eq_lt.2 (hlt h)).symm

/-- **Numbers that are keys are ordered as their exact values.** -/
theorem order_eq_compare_value (ha : a.canonical = a) (hb : b.canonical = b)
    (hnan : a.isNaN = false) (hnan' : b.isNaN = false) : a.order b = compare a.value b.value := by
  cases a with
  | integer i =>
    cases b with
    | integer j =>
      have hpos : (0 : Int) < scale := Int.natCast_pos.2 scale_pos
      show compare i.toInt j.toInt = compare (i.toInt * scale) (j.toInt * scale)
      rcases Int.lt_trichotomy i.toInt j.toInt with h | h | h
      · rw [Int.compare_eq_lt.2 h, Int.compare_eq_lt.2 (Int.mul_lt_mul_of_pos_right h hpos)]
      · rw [h, Std.compare_self, Std.compare_self]
      · rw [Int.compare_eq_gt.2 h, Int.compare_eq_gt.2 (Int.mul_lt_mul_of_pos_right h hpos)]
    | float y =>
      rw [OrderKey.order_of_isFloat hnan hnan' (.inr rfl)]
      exact compare_value_integer hnan' hb
  | float x =>
    rw [OrderKey.order_of_isFloat hnan hnan' (.inl rfl)]
    cases b with
    | integer j =>
      have hswap := congrArg Ordering.swap (compare_value_integer (i := j) hnan ha)
      rw [Ordering.swap_then, Int.compare_swap, Int.compare_swap] at hswap
      exact hswap
    | float y =>
      rw [show compare (isFloat (float x)).toNat (isFloat (float y)).toNat = .eq from rfl,
        Ordering.then_eq]
      exact compare_place x y

end Number

end LuaGraph
