import LuaGraph.Proofs.Binary64.Values
import LuaGraph.Proofs.Decimal.ReadBack

/-!
# The shortest decimal reads back

Every candidate is read back before it is taken, and the exact value, which is left where no grid
has one, rounds to its own magnitude. Neither its exponent nor its digits grow out of bounds: taking
a zero off the digits moves the exponent up by one.

Results: `toMagnitude_shortest`, `moderate_shortest`.
-/

namespace LuaGraph.Decimal

open Binary64

/-! ## Magnitudes -/

theorem units_pos {m : Nat} (h : 0 < m) : 0 < units m := units_strictMono h

theorem units_lt {m : Nat} (h : m < infinity) : units m < 2 ^ 2098 := by
  have hinfinity : units infinity = 2 ^ 2098 := by decide +kernel
  rw [← hinfinity]
  exact units_strictMono h

/-! ## The exact value -/

theorem toMagnitude_exact {m : Nat} (hpos : 0 < m) (h : m < infinity) :
    (exact m).toMagnitude = m := by
  have hu := units_pos hpos
  have hlarge : 2 ^ 2148 ≤ units m * 5 ^ 1074 :=
    calc
      2 ^ 2148 ≤ 5 ^ 1074 := by decide +kernel
      _ ≤ units m * 5 ^ 1074 := Nat.le_mul_of_pos_left _ hu
  have hne : units m * 5 ^ 1074 ≠ 0 := by
    have := Nat.two_pow_pos 2148
    omega
  have hlog : 2148 ≤ (units m * 5 ^ 1074).log2 := (Nat.le_log2 hne).2 hlarge
  unfold exact toMagnitude
  dsimp only
  rw [if_neg hne, if_neg (by decide), if_neg (by omega)]
  have hfive : 0 < 5 ^ 1074 := by decide +kernel
  have hscale : 10 ^ (- -1074 : Int).toNat = scale * 5 ^ 1074 := by decide +kernel
  rw [hscale, show (-1074 : Int).toNat = 0 from rfl, Nat.pow_zero, Nat.mul_one,
    nearest_mul_mul hfive, nearest_units h]

/-- **The shortest decimal of a finite magnitude rounds to it.** -/
theorem toMagnitude_shortest {m : Nat} (h : m < infinity) : (shortest m).toMagnitude = m := by
  unfold shortest
  split
  · rename_i h0
    rw [h0]
    rfl
  · rename_i hne
    dsimp only
    cases hf : (List.range 17).findSome?
        fun n => onGrid? m (leadingPlace (units m) - (n : Nat)) with
    | none => exact toMagnitude_exact (Nat.pos_of_ne_zero hne) h
    | some d =>
      obtain ⟨n, -, hn⟩ := List.exists_of_findSome?_eq_some hf
      exact toMagnitude_of_onGrid? hn

/-! ## Bounds -/

/-- Taking zeros off moves the exponent up and keeps the place of the leading digit. -/
theorem trim_bounds (d : Decimal) :
    d.exponent ≤ (trim d).exponent ∧
      (trim d).exponent + (digitsOf (trim d).digits).length =
        d.exponent + (digitsOf d.digits).length := by
  rw [trim]
  split
  · rename_i h
    have ih := trim_bounds ⟨d.digits / 10, d.exponent + 1⟩
    have hlen : (digitsOf d.digits).length = (digitsOf (d.digits / 10)).length + 1 := by
      rw [digitsOf_of_ten_le (by omega), List.length_append]
      rfl
    dsimp only at ih
    omega
  · exact ⟨Int.le_refl _, rfl⟩
termination_by d.digits
decreasing_by omega

theorem moderate_trim {n k : Nat} {p : Int} (hp : -10000 ≤ p) (hn : n < 10 ^ k) (hk : 0 < k)
    (h : p + k ≤ 10000) : Moderate (trim ⟨n, p⟩) := by
  obtain ⟨h₁, h₂⟩ := trim_bounds ⟨n, p⟩
  have := (length_digitsOf_le_iff hk).2 hn
  dsimp only at h₁ h₂
  exact ⟨by omega, by omega⟩

theorem leadingPlace_bounds {u : Nat} (h : u < 2 ^ 2098) :
    -400 ≤ leadingPlace u ∧ leadingPlace u ≤ 400 := by
  have hlog : u.log2 ≤ 2098 := by
    rcases Nat.eq_zero_or_pos u with rfl | hu
    · simp
    · exact Nat.le_of_lt ((Nat.log2_lt (by omega)).2 h)
  unfold leadingPlace
  dsimp only
  split
  · omega
  · split <;> omega

theorem moderate_onGrid? {m : Nat} {p : Int} {d : Decimal} (hm : m < infinity) (hp : -500 ≤ p)
    (hp' : p ≤ 500) (h : onGrid? m p = some d) : Moderate d := by
  have hq : units m * 10 ^ (-p).toNat / (scale * 10 ^ p.toNat) + 1 < 10 ^ 2000 :=
    calc
      units m * 10 ^ (-p).toNat / (scale * 10 ^ p.toNat) + 1 ≤ units m * 10 ^ (-p).toNat + 1 :=
        Nat.succ_le_succ (Nat.div_le_self _ _)
      _ ≤ 2 ^ 2098 * 10 ^ 500 + 1 := Nat.add_le_add_right (Nat.mul_le_mul
        (Nat.le_of_lt (units_lt hm)) (Nat.pow_le_pow_right (by decide) (by omega))) 1
      _ < 10 ^ 2000 := by decide +kernel
  unfold onGrid? closer? at h
  dsimp only at h
  generalize units m * 10 ^ (-p).toNat / (scale * 10 ^ p.toNat) = q at h hq
  split at h
  · cases h
    exact moderate_trim (k := 2000) (by omega) (by omega) (by omega) (by omega)
  · split at h
    · cases h
      exact moderate_trim (k := 2000) (by omega) hq (by omega) (by omega)
    · cases h

theorem moderate_exact {m : Nat} (h : m < infinity) : Moderate (exact m) := by
  have hlt : units m * 5 ^ 1074 < 10 ^ 3000 :=
    calc
      units m * 5 ^ 1074 ≤ 2 ^ 2098 * 5 ^ 1074 := Nat.mul_le_mul_right _ (Nat.le_of_lt (units_lt h))
      _ < 10 ^ 3000 := by decide +kernel
  have := (length_digitsOf_le_iff (by decide)).2 hlt
  unfold exact
  exact ⟨by show (-10000 : Int) ≤ -1074; decide, by dsimp only; omega⟩

theorem moderate_shortest {m : Nat} (h : m < infinity) : Moderate (shortest m) := by
  unfold shortest
  split
  · exact ⟨by decide, by decide⟩
  · dsimp only
    cases hf : (List.range 17).findSome?
        fun n => onGrid? m (leadingPlace (units m) - (n : Nat)) with
    | none => exact moderate_exact h
    | some d =>
      obtain ⟨n, hmem, hn⟩ := List.exists_of_findSome?_eq_some hf
      have hlead := leadingPlace_bounds (units_lt h)
      rw [List.mem_range] at hmem
      exact moderate_onGrid? h (by omega) (by omega) hn

end LuaGraph.Decimal
