import LuaGraph.Proofs.Binary64.Bits
import LuaGraph.Proofs.Binary64.Rounding

/-!
# Integers as floats

The float closest to an integer (`as_f64`) is a number, and the floats closest to two integers are
in the order of these, though two integers may share one.

Results: `place_ofInt_mono`, `atMost_ofInt`.
-/

namespace LuaGraph.Binary64

theorem place_ofMagnitude (neg : Bool) {m : Nat} (h : m ≤ infinity) :
    place (ofMagnitude neg m) = if neg then -(m : Int) else m := by
  rw [place, negative_ofMagnitude neg h, magnitude_ofMagnitude neg h]

theorem isNaN_ofMagnitude (neg : Bool) {m : Nat} (h : m ≤ infinity) :
    isNaN (ofMagnitude neg m) = false := by
  rw [isNaN, magnitude_ofMagnitude neg h]
  exact decide_eq_false (Nat.not_lt.2 h)

theorem place_ofInt (n : Int) :
    place (ofInt n) = if n < 0 then -(nearest n.natAbs 1 : Int) else nearest n.natAbs 1 := by
  rw [ofInt, place_ofMagnitude _ (nearest_le_infinity n.natAbs 1)]
  simp only [decide_eq_true_eq]

theorem isNaN_ofInt (n : Int) : isNaN (ofInt n) = false :=
  isNaN_ofMagnitude _ (nearest_le_infinity n.natAbs 1)

/-- **Rounding keeps the order of integers.** Below zero a smaller integer has the larger
magnitude. -/
theorem place_ofInt_mono {m n : Int} (h : m ≤ n) : place (ofInt m) ≤ place (ofInt n) := by
  rw [place_ofInt, place_ofInt]
  by_cases hn : n < 0
  · have := nearest_mono (show n.natAbs ≤ m.natAbs by omega) 1
    rw [if_pos hn, if_pos (by omega)]
    omega
  · rw [if_neg hn]
    by_cases hm : m < 0
    · rw [if_pos hm]
      omega
    · have := nearest_mono (show m.natAbs ≤ n.natAbs by omega) 1
      rw [if_neg hm]
      omega

theorem atMost_iff {x y : Float} :
    atMost x y = true ↔ isNaN x = false ∧ isNaN y = false ∧ place x ≤ place y := by
  unfold atMost compare?
  cases isNaN x <;> cases isNaN y <;> simp [Int.isLE_compare]

theorem equal_iff {x y : Float} :
    equal x y = true ↔ isNaN x = false ∧ isNaN y = false ∧ place x = place y := by
  unfold equal compare?
  cases isNaN x <;> cases isNaN y <;> simp

theorem atMost_ofInt {m n : Int} (h : m ≤ n) : atMost (ofInt m) (ofInt n) = true :=
  atMost_iff.2 ⟨isNaN_ofInt m, isNaN_ofInt n, place_ofInt_mono h⟩

end LuaGraph.Binary64
