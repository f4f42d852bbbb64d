import LuaGraph.Binary64

/-!
# Rounding to the nearest magnitude

`nearest` depends on the value of a quotient only, it is monotone, and it gives back every finite
magnitude whose exact value it is handed.

Results: `nearest_mul_mul`, `nearest_mono`, `nearest_units`.
-/

namespace LuaGraph.Binary64

/-! ## Rounding a quotient to an integer -/

theorem roundHalfEven_mul_mul {c : Nat} (hc : 0 < c) (a b : Nat) :
    roundHalfEven (a * c) (b * c) = roundHalfEven a b := by
  unfold roundHalfEven
  rw [Nat.mul_div_mul_right _ _ hc, Nat.mul_mod_mul_right]
  have hlt : 2 * (a % b * c) < b * c ↔ 2 * (a % b) < b := by
    rw [← Nat.mul_assoc, Nat.mul_lt_mul_right hc]
  have heq : 2 * (a % b * c) = b * c ↔ 2 * (a % b) = b := by
    rw [← Nat.mul_assoc]
    exact Nat.mul_left_inj (Nat.ne_of_gt hc)
  simp only [hlt, heq]

theorem div_le_roundHalfEven (a b : Nat) : a / b ≤ roundHalfEven a b := by
  unfold roundHalfEven
  dsimp only
  split <;> omega

theorem roundHalfEven_le (a b : Nat) : roundHalfEven a b ≤ a / b + 1 := by
  unfold roundHalfEven
  dsimp only
  split <;> omega

theorem roundHalfEven_mono {a a' : Nat} (h : a ≤ a') (b : Nat) :
    roundHalfEven a b ≤ roundHalfEven a' b := by
  rcases Nat.lt_or_eq_of_le (Nat.div_le_div_right (c := b) h) with hq | hq
  · calc
      roundHalfEven a b ≤ a / b + 1 := roundHalfEven_le a b
      _ ≤ a' / b := hq
      _ ≤ roundHalfEven a' b := div_le_roundHalfEven a' b
  · have hr : a % b ≤ a' % b := by
      have := Nat.div_add_mod a b
      have := Nat.div_add_mod a' b
      rw [← hq] at this
      omega
    unfold roundHalfEven
    dsimp only
    rw [← hq]
    split <;> split <;> omega

/-! ## The spacing of a binade -/

/-- The exponent of the spacing, for a value of `u` units. -/
def spacing (u : Nat) : Nat := u.log2 - 52

theorem spacing_mono {u v : Nat} (h : u ≤ v) : spacing u ≤ spacing v := by
  unfold spacing
  have : u.log2 ≤ v.log2 := by
    rcases Nat.eq_zero_or_pos u with rfl | hu
    · simp
    · exact (Nat.le_log2 (by omega)).2 (Nat.le_trans (Nat.log2_self_le (by omega)) h)
  omega

/-- In its spacing a value has at most 53 binary digits. -/
theorem div_spacing_lt (u : Nat) : u / 2 ^ spacing u < 2 ^ 53 := by
  rw [Nat.div_lt_iff_lt_mul (Nat.two_pow_pos _), ← Nat.pow_add]
  refine Nat.lt_of_lt_of_le Nat.lt_log2_self (Nat.pow_le_pow_right (by decide) ?_)
  unfold spacing
  omega

/-- In a spacing that is not the least one it has 53. -/
theorem le_div_spacing {u : Nat} (h : 0 < spacing u) : 2 ^ 52 ≤ u / 2 ^ spacing u := by
  rw [Nat.le_div_iff_mul_le (Nat.two_pow_pos _), ← Nat.pow_add]
  have : u ≠ 0 := by
    rintro rfl
    simp [spacing] at h
  refine Nat.le_trans (Nat.pow_le_pow_right (by decide) ?_) (Nat.log2_self_le this)
  unfold spacing at *
  omega

/-! ## Exact values -/

/-- From `s * binade` on a step of the magnitude is `2 ^ s` units, up to the end of the binade. -/
theorem units_add {s q : Nat} (hq : q ≤ 2 * binade) (hs : 0 < s → binade ≤ q) :
    units (s * binade + q) = q * 2 ^ s := by
  have hpos : 0 < binade := by decide
  unfold units
  rcases Nat.lt_or_ge q binade with hlt | hge
  · obtain rfl : s = 0 := Nat.eq_zero_of_not_pos fun h => Nat.not_lt.2 (hs h) hlt
    rw [Nat.zero_mul, Nat.zero_add, if_pos hlt, Nat.pow_zero, Nat.mul_one]
  · rw [if_neg (by omega)]
    obtain ⟨r, rfl⟩ := Nat.exists_eq_add_of_le hge
    have hsum : s * binade + (binade + r) = r + binade * (s + 1) := by
      rw [Nat.mul_add, Nat.mul_one, Nat.mul_comm binade]
      omega
    rw [hsum, Nat.add_mul_mod_self_left, Nat.add_mul_div_left _ _ hpos]
    rcases Nat.lt_or_eq_of_le (show r ≤ binade by omega) with hlt | rfl
    · rw [Nat.mod_eq_of_lt hlt, Nat.div_eq_of_lt hlt, Nat.zero_add, Nat.add_sub_cancel]
    · rw [Nat.mod_self, Nat.div_self hpos, Nat.add_sub_cancel_left, Nat.pow_succ]
      grind

/-- Every magnitude is so many steps of a spacing. -/
theorem exists_steps (m : Nat) :
    ∃ s q, m = s * binade + q ∧ q < 2 * binade ∧ (0 < s → binade ≤ q) := by
  have hpos : 0 < binade := by decide
  rcases Nat.lt_or_ge m binade with hlt | hge
  · exact ⟨0, m, by omega, by omega, by omega⟩
  · have hdiv : 1 ≤ m / binade := Nat.div_pos hge hpos
    have hmod := Nat.mod_lt m hpos
    refine ⟨m / binade - 1, binade + m % binade, ?_, by omega, by omega⟩
    have := Nat.div_add_mod m binade
    have hmul : (m / binade - 1 + 1) * binade = (m / binade - 1) * binade + binade :=
      Nat.succ_mul ..
    rw [Nat.sub_add_cancel hdiv, Nat.mul_comm] at hmul
    omega

/-- The spacing of a value is that of the steps that it is counted in. -/
theorem spacing_steps {s q : Nat} (hq : q < 2 * binade) (hs : 0 < s → binade ≤ q) :
    spacing (q * 2 ^ s) = s := by
  unfold spacing
  unfold binade at hq hs
  rcases Nat.eq_zero_or_pos s with rfl | hpos
  · rcases Nat.eq_zero_or_pos q with rfl | hqpos
    · rfl
    · have hlog := (Nat.log2_lt (n := q) (k := 53) (by omega)).2 hq
      rw [Nat.pow_zero, Nat.mul_one]
      omega
  · have hlog : (q * 2 ^ s).log2 = 52 + s := by
      have hq' := hs hpos
      rw [Nat.log2_eq_iff (Nat.ne_of_gt (Nat.mul_pos (by omega) (Nat.two_pow_pos _))),
        Nat.pow_add, show 52 + s + 1 = 53 + s by omega, Nat.pow_add]
      exact ⟨Nat.mul_le_mul_right _ hq', Nat.mul_lt_mul_of_pos_right hq (Nat.two_pow_pos _)⟩
    omega

/-! ## The nearest magnitude -/

theorem scale_pos : 0 < scale := by decide +kernel

theorem nearest_eq (num den : Nat) :
    nearest num den = min infinity (spacing (num * scale / den) * binade +
      roundHalfEven (num * scale) (den * 2 ^ spacing (num * scale / den))) := rfl

/-- A quotient is rounded by its value. -/
theorem nearest_mul_mul {c : Nat} (hc : 0 < c) (num den : Nat) :
    nearest (num * c) (den * c) = nearest num den := by
  have hs : num * c * scale = num * scale * c := Nat.mul_right_comm ..
  have hd : num * c * scale / (den * c) = num * scale / den := by
    rw [hs, Nat.mul_div_mul_right _ _ hc]
  rw [nearest_eq, nearest_eq, hd, hs, Nat.mul_right_comm den c, roundHalfEven_mul_mul hc]

/-- **Rounding is monotone.** Within one spacing this is monotony of rounding to an integer; a
greater spacing begins where the smaller one ends. -/
theorem nearest_mono {a b : Nat} (h : a ≤ b) (den : Nat) : nearest a den ≤ nearest b den := by
  rw [nearest_eq, nearest_eq]
  have hab : a * scale ≤ b * scale := Nat.mul_le_mul_right _ h
  have hu : a * scale / den ≤ b * scale / den := Nat.div_le_div_right hab
  refine Nat.le_min.2 ⟨Nat.min_le_left _ _, Nat.le_trans (Nat.min_le_right _ _) ?_⟩
  rcases Nat.lt_or_eq_of_le (spacing_mono hu) with hlt | heq
  · have ha := roundHalfEven_le (a * scale) (den * 2 ^ spacing (a * scale / den))
    have hb := div_le_roundHalfEven (b * scale) (den * 2 ^ spacing (b * scale / den))
    rw [← Nat.div_div_eq_div_mul] at ha hb
    have := div_spacing_lt (a * scale / den)
    have := le_div_spacing (u := b * scale / den) (by omega)
    unfold binade
    omega
  · rw [heq]
    exact Nat.add_le_add_left (roundHalfEven_mono hab _) _

/-- **A finite magnitude is the nearest one to its own value.** -/
theorem nearest_units {m : Nat} (h : m < infinity) : nearest (units m) scale = m := by
  obtain ⟨s, q, rfl, hq, hs⟩ := exists_steps m
  have hscale := scale_pos
  rw [nearest_eq, Nat.mul_div_cancel _ hscale, Nat.mul_comm scale,
    roundHalfEven_mul_mul hscale, units_add (Nat.le_of_lt hq) hs, spacing_steps hq hs,
    roundHalfEven_mul (Nat.two_pow_pos s)]
  omega

end LuaGraph.Binary64
