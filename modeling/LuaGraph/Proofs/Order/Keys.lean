import LuaGraph.Proofs.Binary64.Integers
import LuaGraph.Proofs.Graph.WellFormed
import LuaGraph.Order

/-!
# The order of keys

Without NaN, the order of keys (the `cmp` of `SortKey`) is lexicographic: by group, then by the
float, the subtype and the exact integer of a number, then by the letters of anything else. Only
tables can be level with one another.

Results: `order_eq_lexOrder`, **`Value.IsKey.eq_of_lexOrder`**.
-/

namespace LuaGraph

/-! ## Lexicographic order -/

namespace OrderKey

/-- A number that has no place among the others. -/
def isNaN : OrderKey → Bool
  | number n => n.isNaN
  | _ => false

/-- The place of a number as a float; true comes before false. -/
def place : OrderKey → Int
  | number n => Binary64.place n.toFloat
  | boolean b => -(b.toNat : Int)
  | _ => 0

/-- An integer comes before a float. -/
def subtype : OrderKey → Nat
  | number n => n.isFloat.toNat
  | _ => 0

/-- The exact value of an integer. -/
def exact : OrderKey → Int
  | number (.integer i) => i.toInt
  | _ => 0

/-- The letters of a string, or of the name of a kind. -/
def letters : OrderKey → String
  | string s => s
  | other k _ => k.name
  | _ => ""

/-- The text that tells apart what is of one kind. -/
def mark : OrderKey → String
  | other _ s => s
  | _ => ""

/-- The order of two keys, one part after the other. -/
def lexOrder : OrderKey → OrderKey → Ordering :=
  compareLex (compareOn rank) (compareLex (compareOn place) (compareLex (compareOn subtype)
    (compareLex (compareOn exact) (compareLex (compareOn letters) (compareOn mark)))))

instance : Std.TransCmp lexOrder :=
  inferInstanceAs (Std.TransCmp (compareLex _ _))

variable {a b : OrderKey}

theorem lexOrder_number (m n : Number) :
    lexOrder (number m) (number n) =
      (compare (Binary64.place m.toFloat) (Binary64.place n.toFloat)).then
        ((compare m.isFloat.toNat n.isFloat.toNat).then
          (compare (exact (number m)) (exact (number n)))) := by
  simp only [lexOrder, compareLex, compareOn, rank, place, subtype, letters, mark,
    Std.compare_self, Ordering.eq_then, Ordering.then_eq]

/-- A coarser order that is asked first changes nothing. -/
theorem compare_then {f : Int → Int} (hf : ∀ i j, i ≤ j → f i ≤ f j) (i j : Int) :
    (compare (f i) (f j)).then (compare i j) = compare i j := by
  rcases Int.lt_trichotomy i j with h | rfl | h
  · rw [Int.compare_eq_lt.2 h]
    rcases Int.lt_or_eq_of_le (hf i j (Int.le_of_lt h)) with hlt | heq
    · rw [Int.compare_eq_lt.2 hlt]
      rfl
    · rw [Int.compare_eq_eq.2 heq]
      rfl
  · rw [Std.compare_self]
    rfl
  · rw [Int.compare_eq_gt.2 h]
    rcases Int.lt_or_eq_of_le (hf j i (Int.le_of_lt h)) with hlt | heq
    · rw [Int.compare_eq_gt.2 hlt]
      rfl
    · rw [Int.compare_eq_eq.2 heq.symm]
      rfl

/-- A float is compared with any number by their places, then by their subtypes. -/
theorem order_of_isFloat {m n : Number} (hm : m.isNaN = false) (hn : n.isNaN = false)
    (h : m.isFloat = true ∨ n.isFloat = true) :
    m.order n = (compare (Binary64.place m.toFloat) (Binary64.place n.toFloat)).then
      (compare m.isFloat.toNat n.isFloat.toNat) := by
  have hfloat (n : Number) (hn : n.isNaN = false) : Binary64.isNaN n.toFloat = false := by
    cases n with
    | integer i => exact Binary64.isNaN_ofInt _
    | float x => exact hn
  have hplaces : Binary64.compare? m.toFloat n.toFloat =
      some (compare (Binary64.place m.toFloat) (Binary64.place n.toFloat)) := by
    rw [Binary64.compare?, hfloat m hm, hfloat n hn]
    rfl
  unfold Number.order
  split
  · rcases h with h | h <;> cases h
  · rw [hplaces, Option.getD_some]

theorem order_number {m n : Number} (hm : m.isNaN = false) (hn : n.isNaN = false) :
    m.order n = lexOrder (number m) (number n) := by
  rw [lexOrder_number]
  cases m with
  | integer i =>
    cases n with
    | integer j =>
      have hmono := compare_then (fun _ _ => Binary64.place_ofInt_mono) i.toInt j.toInt
      exact hmono.symm
    | float y =>
      rw [order_of_isFloat hm hn (.inr rfl)]
      rfl
  | float x =>
    rw [order_of_isFloat hm hn (.inl rfl)]
    cases n with
    | integer j => rfl
    | float y => rfl

/-- **Without NaN the order is lexicographic.** -/
theorem order_eq_lexOrder (ha : a.isNaN = false) (hb : b.isNaN = false) :
    a.order b = lexOrder a b := by
  cases a with
  | number m =>
    cases b with
    | number n => exact order_number ha hb
    | _ => rfl
  | string s =>
    cases b with
    | string s' =>
      simp only [order, lexOrder, compareLex, compareOn, rank, place, subtype, exact, letters,
        mark, Std.compare_self, Ordering.eq_then, Ordering.then_eq]
    | _ => rfl
  | boolean b₁ =>
    cases b with
    | boolean b₂ => cases b₁ <;> cases b₂ <;> rfl
    | _ => rfl
  | other k s =>
    cases b with
    | other k' s' =>
      simp only [order, lexOrder, compareLex, compareOn, rank, place, subtype, exact, letters,
        mark, Std.compare_self, Ordering.eq_then]
      cases compare k.name k'.name <;> rfl
    | _ => rfl

end OrderKey

/-! ## Keys that are level -/

/-- A float that is a key in canonical form is not zero. -/
theorem Binary64.place_ne_zero {x : Float} (h : (Number.float x).canonical = .float x) :
    place x ≠ 0 := by
  intro hplace
  have hm : magnitude x = 0 := by
    unfold place at hplace
    split at hplace <;> omega
  have hint : toInt? x = some 0 := by
    unfold toInt?
    dsimp only
    rw [hm, if_neg (by decide), show units 0 = 0 from rfl, Nat.zero_mod, Nat.zero_div, if_pos rfl]
    cases negative x <;> rfl
  rw [Number.canonical, hint] at h
  cases h

/-- Two floats at one place, which is not that of the zeros, are the same. -/
theorem Binary64.eq_of_place {x y : Float} (hx : isNaN x = false) (hy : isNaN y = false)
    (hzero : place x ≠ 0) (h : place x = place y) : x = y := by
  rw [← ofMagnitude_magnitude hx, ← ofMagnitude_magnitude hy]
  unfold place at h hzero
  cases hs : negative x <;> cases hs' : negative y <;>
    simp only [hs, hs', if_true, Bool.false_eq_true, if_false] at h hzero <;> congr 1 <;> omega

namespace Value.IsKey

variable {k l : Value} {signature : TableId → String}

theorem isNaN_ofValue (h : k.IsKey) (signature : TableId → String) :
    (OrderKey.ofValue signature k).isNaN = false := by
  cases k with
  | number n =>
    refine Bool.eq_false_iff.2 fun hnan => ?_
    have hnan : n.isNaN = true := hnan
    rw [IsKey, toKey, if_pos hnan] at h
    cases h
  | _ => rfl

/-- **The order tells keys apart**, unless both are tables. -/
theorem eq_of_lexOrder (h : k.IsKey) (h' : l.IsKey) (hh : k.isHandle = false)
    (heq : (OrderKey.ofValue signature k).lexOrder (OrderKey.ofValue signature l) = .eq) :
    k = l ∨ k.isTable = true ∧ l.isTable = true := by
  have hnan := h.isNaN_ofValue signature
  have hnan' := h'.isNaN_ofValue signature
  simp only [OrderKey.lexOrder, compareLex, compareOn, Ordering.then_eq_eq,
    Std.compare_eq_iff_eq] at heq
  obtain ⟨hrank, hplace, hsubtype, hexact, hletters, -⟩ := heq
  cases k with
  | nil => cases h
  | function f => cases hh
  | userdata f => cases hh
  | table t =>
    cases l with
    | nil => cases h'
    | table u => exact .inr ⟨rfl, rfl⟩
    | function f => exact absurd (show "table" = "function" from hletters) (by decide)
    | userdata f => exact absurd (show "table" = "userdata" from hletters) (by decide)
    | _ => cases hrank
  | boolean b =>
    cases l with
    | boolean b' => cases b <;> cases b' <;> first | exact .inl rfl | cases hplace
    | nil => cases h'
    | _ => cases hrank
  | string s =>
    cases l with
    | string s' => exact .inl (congrArg string hletters)
    | nil => cases h'
    | _ => cases hrank
  | number m =>
    cases l with
    | number n =>
      refine .inl ?_
      cases m with
      | integer i =>
        cases n with
        | integer j => exact congrArg (number ∘ .integer) (Int64.toInt_inj.1 hexact)
        | float y => cases hsubtype
      | float x =>
        cases n with
        | integer j => cases hsubtype
        | float y =>
          have hcanonical : (Number.float x).canonical = .float x := number.inj h.canonical
          exact congrArg (number ∘ .float) (Binary64.eq_of_place hnan hnan'
            (Binary64.place_ne_zero hcanonical) hplace)
    | nil => cases h'
    | _ => cases hrank

/-- The order tells tables apart by their signatures. -/
theorem signature_eq_of_lexOrder {t u : TableId}
    (heq : (OrderKey.ofValue signature (.table t)).lexOrder
      (OrderKey.ofValue signature (.table u)) = .eq) : signature t = signature u := by
  simp only [OrderKey.lexOrder, compareLex, compareOn, Ordering.then_eq_eq,
    Std.compare_eq_iff_eq] at heq
  exact heq.2.2.2.2.2

end Value.IsKey

end LuaGraph
