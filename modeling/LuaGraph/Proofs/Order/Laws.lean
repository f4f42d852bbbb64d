import LuaGraph.Proofs.Order.Keys

/-!
# The laws of the order

The other way round the order (`SortKey::cmp`) is always reversed. It is transitive as long as no
NaN is one of the first two, so it is a total preorder of keys, none of which is NaN.

The values by which level table keys are told apart may be NaN. NaN is level with every float and
above every integer, so `2.0` and `1.0` are both level with it, and entries with these values stay
in the order in which they came (`not_isLE_trans`).

Result: **`OrderKey.order_laws`**.
-/

namespace LuaGraph

/-- Beside a NaN only the subtypes count. -/
theorem Number.order_of_isNaN {m n : Number} (h : m.isNaN = true ∨ n.isNaN = true) :
    m.order n = compare m.isFloat.toNat n.isFloat.toNat := by
  have hfloat (n : Number) (hn : n.isNaN = true) : Binary64.isNaN n.toFloat = true := by
    cases n with
    | integer i => cases hn
    | float x => exact hn
  have hnone : Binary64.compare? m.toFloat n.toFloat = none := by
    unfold Binary64.compare?
    rw [if_pos]
    rcases h with h | h
    · rw [hfloat m h, Bool.true_or]
    · rw [hfloat n h, Bool.or_true]
  unfold Number.order
  split
  · rcases h with h | h <;> cases h
  · rw [hnone]
    rfl

namespace OrderKey

variable {a b c : OrderKey}

theorem eq_number_of_isNaN (h : a.isNaN = true) : ∃ n, a = number n ∧ n.isNaN = true := by
  cases a with
  | number n => exact ⟨n, rfl, h⟩
  | _ => cases h

/-- **The other way round the order is reversed.** -/
theorem order_swap (a b : OrderKey) : (b.order a).swap = a.order b := by
  have hleft {a b : OrderKey} (ha : a.isNaN = true) : (b.order a).swap = a.order b := by
    obtain ⟨m, rfl, hm⟩ := eq_number_of_isNaN ha
    cases b with
    | number n =>
      rw [order, order, Number.order_of_isNaN (.inl hm), Number.order_of_isNaN (.inr hm),
        Nat.compare_swap]
    | _ => rfl
  cases ha : a.isNaN with
  | true => exact hleft ha
  | false =>
    cases hb : b.isNaN with
    | true => rw [← hleft hb, Ordering.swap_swap]
    | false =>
      rw [order_eq_lexOrder ha hb, order_eq_lexOrder hb ha]
      exact Std.OrientedCmp.eq_swap.symm

theorem order_self (a : OrderKey) : a.order a = .eq := by
  have hswap := order_swap a a
  cases ha : a.order a with
  | eq => rfl
  | lt =>
    rw [ha] at hswap
    cases hswap
  | gt =>
    rw [ha] at hswap
    cases hswap

/-- Only numbers come before a number. -/
theorem eq_number_of_isLE {n : Number} (h : (a.order (number n)).isLE) : ∃ m, a = number m := by
  cases a with
  | number m => exact ⟨m, rfl⟩
  | _ => cases h

/-- **The order is transitive** if neither of the first two is NaN. -/
theorem isLE_trans (ha : a.isNaN = false) (hb : b.isNaN = false) (hab : (a.order b).isLE)
    (hbc : (b.order c).isLE) : (a.order c).isLE := by
  cases hc : c.isNaN with
  | false =>
    rw [order_eq_lexOrder ha hb] at hab
    rw [order_eq_lexOrder hb hc] at hbc
    rw [order_eq_lexOrder ha hc]
    exact Std.TransCmp.isLE_trans hab hbc
  | true =>
    -- what comes before NaN is a number, and every number does
    obtain ⟨p, rfl, hp⟩ := eq_number_of_isNaN hc
    obtain ⟨n, rfl⟩ := eq_number_of_isLE hbc
    obtain ⟨m, rfl⟩ := eq_number_of_isLE hab
    rw [order, Number.order_of_isNaN (.inr hp)]
    cases p with
    | integer i => cases hp
    | float x => cases m <;> rfl

/-- **The laws of the order**, for whatever is sorted by: keys and the values of level keys. Among
keys only tables can be level. -/
theorem order_laws (signature : TableId → String) (a b c : Value) :
    ((ofValue signature b).order (ofValue signature a)).swap =
      (ofValue signature a).order (ofValue signature b) ∧
    ((ofValue signature a).isNaN = false → (ofValue signature b).isNaN = false →
      ((ofValue signature a).order (ofValue signature b)).isLE →
      ((ofValue signature b).order (ofValue signature c)).isLE →
      ((ofValue signature a).order (ofValue signature c)).isLE) ∧
    (a.IsKey → b.IsKey → a.isHandle = false →
      (ofValue signature a).order (ofValue signature b) = .eq →
      a = b ∨ a.isTable = true ∧ b.isTable = true) := by
  refine ⟨order_swap _ _, isLE_trans, fun ha hb hh heq => ?_⟩
  rw [order_eq_lexOrder (ha.isNaN_ofValue signature) (hb.isNaN_ofValue signature)] at heq
  exact ha.eq_of_lexOrder hb hh heq

/-- The greatest integer comes before the float that it is rounded to, and that before NaN. -/
theorem order_laws_rounded :
    ((number (.integer 9223372036854775807)).order
      (number (.float (Float.ofBits 0x43e0000000000000)))).isLE ∧
    ((number (.float (Float.ofBits 0x43e0000000000000))).order
      (number (.float (Float.ofBits 0x7ff8000000000000)))).isLE ∧
    ((number (.integer 9223372036854775807)).order
      (number (.float (Float.ofBits 0x7ff8000000000000)))).isLE := by
  have hab : ((number (.integer 9223372036854775807)).order
      (number (.float (Float.ofBits 0x43e0000000000000)))).isLE := by decide +kernel
  have hbc : ((number (.float (Float.ofBits 0x43e0000000000000))).order
      (number (.float (Float.ofBits 0x7ff8000000000000)))).isLE := by decide +kernel
  exact ⟨hab, hbc, (order_laws (fun _ => "") (.number (.integer 9223372036854775807))
    (.number (.float (Float.ofBits 0x43e0000000000000)))
    (.number (.float (Float.ofBits 0x7ff8000000000000)))).2.1 rfl (by decide +kernel) hab hbc⟩

/-- **NaN breaks transitivity**: `2.0` comes no later than NaN, which comes no later than `1.0`. So
three entries with these values, whose keys have one signature, stay in this order. -/
theorem not_isLE_trans :
    (¬∀ (signature : TableId → String) (a b c : Value),
      ((ofValue signature a).order (ofValue signature b)).isLE →
      ((ofValue signature b).order (ofValue signature c)).isLE →
      ((ofValue signature a).order (ofValue signature c)).isLE) ∧
    Listing.sortEntries (fun _ => some "\x7b\x7d")
      [(.table 1, .number (.float (Float.ofBits 0x4000000000000000))),
        (.table 2, .number (.float (Float.ofBits 0x7ff8000000000000))),
        (.table 3, .number (.float (Float.ofBits 0x3ff0000000000000)))] =
      some [(.table 1, .number (.float (Float.ofBits 0x4000000000000000))),
        (.table 2, .number (.float (Float.ofBits 0x7ff8000000000000))),
        (.table 3, .number (.float (Float.ofBits 0x3ff0000000000000)))] := by
  refine ⟨fun h => ?_, by decide +kernel⟩
  have hle := h (fun _ => "") (.number (.float (Float.ofBits 0x4000000000000000)))
    (.number (.float (Float.ofBits 0x7ff8000000000000)))
    (.number (.float (Float.ofBits 0x3ff0000000000000))) (by decide +kernel) (by decide +kernel)
  exact absurd hle (by decide +kernel)

end OrderKey

end LuaGraph
