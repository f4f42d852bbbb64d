import LuaGraph.Proofs.Order.Numbers
import Mathlib.Data.EReal.Basic
import Mathlib.Tactic.FieldSimp
import Mathlib.Tactic.Ring

/-!
# Numbers in the extended reals

The exact value of a number is given as an extended real: that of an integer by itself, that of a
float by the sign, the exponent and the fraction that make up its bits. Numbers that a table holds
as keys are ordered (`compare_numbers`) as these values, although an integer is rounded before it is
compared with a float.

Results: `Value.IsKey.eq_of_value`, **`Number.order_iff_exactValue`**.
-/

namespace LuaGraph

/-! ## Floats -/

namespace Binary64

/-- The absolute value of a finite magnitude, which is an exponent above a fraction of 52 bits. With
the exponent zero there is no leading one, and the power is that of the exponent one. -/
noncomputable def absolute (m : Nat) : ℝ :=
  if m / binade = 0 then (m % binade : ℕ) / 2 ^ 52 * 2 ^ (-1022 : ℤ)
  else (1 + (m % binade : ℕ) / 2 ^ 52) * 2 ^ ((m / binade : ℕ) - 1023 : ℤ)

/-- The exact value of a float. NaN has none. -/
noncomputable def exactValue (x : Float) : EReal :=
  if isInfinite x then if negative x then ⊥ else ⊤
  else ((if negative x then -absolute (magnitude x) else absolute (magnitude x) : ℝ) : EReal)

theorem cast_scale : (scale : ℝ) = 2 ^ (1074 : ℤ) := by
  -- the power is too large to be computed
  obtain ⟨k, hk, hscale⟩ : ∃ k : ℕ, (k : ℤ) = 1074 ∧ scale = 2 ^ k :=
    ⟨1074, rfl, by rw [scale]⟩
  rw [hscale, ← hk, zpow_natCast, Nat.cast_pow, Nat.cast_ofNat]

/-- **Units are counted exactly.** -/
theorem absolute_eq (m : Nat) : absolute m = units m / scale := by
  have htwo : (2 : ℝ) ≠ 0 := two_ne_zero
  have hbinade : (binade : ℝ) = 2 ^ 52 := by rw [binade, Nat.cast_pow, Nat.cast_ofNat]
  rw [cast_scale]
  unfold absolute units
  by_cases hm : m / binade = 0
  · have hlt : m < binade := (Nat.div_eq_zero_iff.1 hm).resolve_left (by decide)
    have hpower : (2 : ℝ) ^ (-1022 : ℤ) = 2 ^ 52 / 2 ^ (1074 : ℤ) := by
      rw [← zpow_natCast, ← zpow_sub₀ htwo]
      norm_num
    rw [if_pos hm, if_pos hlt, Nat.mod_eq_of_lt hlt, hpower]
    field_simp
  · obtain ⟨k, hk⟩ := Nat.exists_eq_succ_of_ne_zero hm
    have hge : ¬m < binade := fun hlt => hm (Nat.div_eq_of_lt hlt)
    have hpower : (2 : ℝ) ^ ((k + 1 : ℕ) - 1023 : ℤ) = 2 ^ 52 * 2 ^ k / 2 ^ (1074 : ℤ) := by
      rw [← zpow_natCast, ← zpow_natCast, ← zpow_add₀ htwo, ← zpow_sub₀ htwo]
      congr 1
      push_cast
      ring
    rw [if_neg hm, if_neg hge, hk, Nat.succ_eq_add_one, Nat.add_sub_cancel, hpower]
    push_cast
    rw [hbinade]
    field_simp

/-- A value in units and the exact value that it counts. The infinities stand where the finite
values end. -/
inductive Counts : Int → EReal → Prop
  | bottom : Counts (-units infinity) ⊥
  | top : Counts (units infinity) ⊤
  | finite {v : Int} : -units infinity < v → v < units infinity →
      Counts v ((v / scale : ℝ) : EReal)

/-- **Exact values are in the order in which they are counted.** -/
theorem Counts.lt_iff {v w : Int} {e f : EReal} (h : Counts v e) (h' : Counts w f) :
    e < f ↔ v < w := by
  have hpos : (0 : ℝ) < scale := Nat.cast_pos.2 scale_pos
  have hunits : 0 < units infinity := units_strictMono (show 0 < infinity by decide)
  cases h with
  | bottom =>
    cases h' with
    | bottom => exact iff_of_false (lt_irrefl _) (lt_irrefl _)
    | top => exact iff_of_true bot_lt_top (by omega)
    | finite hlo _ => exact iff_of_true (EReal.bot_lt_coe _) hlo
  | top =>
    cases h' with
    | bottom => exact iff_of_false not_top_lt (by omega)
    | top => exact iff_of_false not_top_lt (lt_irrefl _)
    | finite _ hhi => exact iff_of_false not_top_lt (by omega)
  | finite hlo hhi =>
    cases h' with
    | bottom => exact iff_of_false not_lt_bot (by omega)
    | top => exact iff_of_true (EReal.coe_lt_top _) hhi
    | finite => rw [EReal.coe_lt_coe_iff, div_lt_div_iff_of_pos_right hpos, Int.cast_lt]

theorem Counts.eq_iff {v w : Int} {e f : EReal} (h : Counts v e) (h' : Counts w f) :
    e = f ↔ v = w := by
  rw [le_antisymm_iff, le_antisymm_iff, ← not_lt, ← not_lt, ← not_lt, ← not_lt, h.lt_iff h',
    h'.lt_iff h]

theorem counts_float {x : Float} (h : isNaN x = false) : Counts (value x) (exactValue x) := by
  have hle : magnitude x ≤ infinity := by simpa [isNaN] using h
  unfold value exactValue isInfinite
  rcases Nat.lt_or_eq_of_le hle with hlt | heq
  · have hunits : units (magnitude x) < units infinity := units_strictMono hlt
    rw [beq_eq_false_iff_ne.2 (Nat.ne_of_lt hlt), if_neg Bool.false_ne_true, absolute_eq]
    cases negative x with
    | false =>
      have hcounts := Counts.finite (v := units (magnitude x)) (by omega) (by omega)
      rw [Int.cast_natCast] at hcounts
      rwa [if_neg Bool.false_ne_true, if_neg Bool.false_ne_true]
    | true =>
      have hcounts := Counts.finite (v := -units (magnitude x)) (by omega) (by omega)
      rw [Int.cast_neg, Int.cast_natCast, neg_div] at hcounts
      rwa [if_pos rfl, if_pos rfl]
  · rw [heq, beq_self_eq_true, if_pos rfl]
    cases negative x with
    | false => exact .top
    | true => exact .bottom

theorem counts_integer (i : Int64) : Counts (i.toInt * scale) ((i.toInt : ℝ) : EReal) := by
  have hscale : (scale : ℝ) ≠ 0 := Nat.cast_ne_zero.2 (Nat.ne_of_gt scale_pos)
  have hunits : 2 ^ 63 * scale < units infinity := by
    rw [← units_beyond]
    exact units_strictMono (by decide)
  have hpos : (0 : Int) < scale := Int.natCast_pos.2 scale_pos
  have hlo : -2 ^ 63 * (scale : Int) ≤ i.toInt * scale :=
    Int.mul_le_mul_of_nonneg_right i.le_toInt (Int.le_of_lt hpos)
  have hhi : i.toInt * scale < 2 ^ 63 * (scale : Int) :=
    Int.mul_lt_mul_of_pos_right i.toInt_lt hpos
  have hvalue : ((i.toInt * scale : Int) / scale : ℝ) = i.toInt := by
    rw [Int.cast_mul, Int.cast_natCast, mul_div_assoc, div_self hscale, mul_one]
  rw [← hvalue]
  exact .finite (by omega) (by omega)

end Binary64

/-! ## Numbers -/

namespace Number

open Binary64

variable {a b n : Number}

/-- The exact value of a number. NaN has none. -/
noncomputable def exactValue : Number → EReal
  | integer i => ((i.toInt : ℝ) : EReal)
  | float x => Binary64.exactValue x

theorem counts_value (h : n.isNaN = false) : Counts n.value n.exactValue := by
  cases n with
  | integer i => exact counts_integer i
  | float x => exact counts_float h

theorem exactValue_lt_iff (ha : a.isNaN = false) (hb : b.isNaN = false) :
    a.exactValue < b.exactValue ↔ a.value < b.value :=
  (counts_value ha).lt_iff (counts_value hb)

theorem exactValue_eq_iff (ha : a.isNaN = false) (hb : b.isNaN = false) :
    a.exactValue = b.exactValue ↔ a.value = b.value :=
  (counts_value ha).eq_iff (counts_value hb)

end Number

/-! ## Keys -/

open Number

namespace Value

variable {a b n : Number}

theorem IsKey.isNaN_eq_false (h : (number n).IsKey) : n.isNaN = false :=
  h.isNaN_ofValue fun _ => ""

/-- Keys with the same value are the same key. -/
theorem IsKey.eq_of_value (ha : (number a).IsKey) (hb : (number b).IsKey)
    (h : a.value = b.value) : a = b := by
  have hna := ha.isNaN_eq_false
  have hnb := hb.isNaN_eq_false
  have hcanonical : a.canonical = a := number.inj ha.canonical
  have hcanonical' : b.canonical = b := number.inj hb.canonical
  have horder : (OrderKey.ofValue (fun _ => "") (number a)).lexOrder
      (OrderKey.ofValue (fun _ => "") (number b)) = .eq := by
    show (OrderKey.number a).lexOrder (.number b) = .eq
    rw [← OrderKey.order_number hna hnb,
      order_eq_compare_value hcanonical hcanonical' hna hnb, h, Std.compare_self]
  rcases ha.eq_of_lexOrder hb rfl horder with h | ⟨h, -⟩
  · exact number.inj h
  · cases h

end Value

/-- **Numbers that a table holds as keys are ordered as their exact values**, and level only if they
are the same key. -/
theorem Number.order_iff_exactValue {a b : Number} (ha : (Value.number a).IsKey)
    (hb : (Value.number b).IsKey) :
    (a.order b = .lt ↔ a.exactValue < b.exactValue) ∧
    (a.order b = .eq ↔ a.exactValue = b.exactValue) ∧
    (a.order b = .gt ↔ b.exactValue < a.exactValue) ∧
    (a.order b = .eq → a = b) := by
  have hna := ha.isNaN_eq_false
  have hnb := hb.isNaN_eq_false
  have horder : a.order b = compare a.value b.value :=
    order_eq_compare_value (Value.number.inj ha.canonical) (Value.number.inj hb.canonical) hna hnb
  rw [horder, exactValue_lt_iff hna hnb, exactValue_eq_iff hna hnb, exactValue_lt_iff hnb hna]
  exact ⟨Int.compare_eq_lt, Int.compare_eq_eq, Int.compare_eq_gt,
    fun h => ha.eq_of_value hb (Int.compare_eq_eq.1 h)⟩

/-- The greatest integer is rounded to `2 ^ 63`, and is below it all the same. -/
theorem Number.order_iff_exactValue_rounded :
    ((Value.number (.integer 9223372036854775807)).IsKey ∧
      (Value.number (.float (Float.ofBits 0x43e0000000000000))).IsKey) ∧
    toFloat (.integer 9223372036854775807) = toFloat (.float (Float.ofBits 0x43e0000000000000)) ∧
    exactValue (.integer 9223372036854775807) <
      exactValue (.float (Float.ofBits 0x43e0000000000000)) := by
  have hinteger : (Value.number (.integer 9223372036854775807)).IsKey := rfl
  obtain ⟨hfloat, hrounded, horder⟩ :
      (Value.number (.float (Float.ofBits 0x43e0000000000000))).toKey =
        .ok (.number (.float (Float.ofBits 0x43e0000000000000))) ∧
      toFloat (.integer 9223372036854775807) =
        toFloat (.float (Float.ofBits 0x43e0000000000000)) ∧
      order (.integer 9223372036854775807) (.float (Float.ofBits 0x43e0000000000000)) = .lt := by
    decide +kernel
  exact ⟨⟨hinteger, hfloat⟩, hrounded, (Number.order_iff_exactValue hinteger hfloat).1.1 horder⟩

end LuaGraph
