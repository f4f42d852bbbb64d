import LuaGraph.Decimal.Style

/-!
# Digits

The digits of a number are digits, there is at least one, and they stand for the number. Digits that
follow others stand for the sum of what both stand for, each in its place.
-/

namespace LuaGraph.Decimal

/-! ## Digit characters -/

theorem isDigit_iff {c : Char} : isDigit c = true ↔ c.isDigit = true := by
  simp [isDigit, Char.isDigit, Char.le_def]

theorem isDigit_of_mem_digitsOf {n : Nat} {c : Char} (h : c ∈ digitsOf n) : isDigit c = true :=
  isDigit_iff.2 (Nat.isDigit_of_mem_toDigits (by decide) (by decide) h)

theorem isDigit_of_mem_zeros {n : Nat} {c : Char} (h : c ∈ zeros n) : isDigit c = true := by
  rw [List.eq_of_mem_replicate h]
  decide

theorem digitsOf_ne_nil (n : Nat) : digitsOf n ≠ [] := Nat.toDigits_ne_nil

theorem length_digitsOf_pos (n : Nat) : 0 < (digitsOf n).length := Nat.length_toDigits_pos

theorem length_digitsOf_le_iff {n k : Nat} (h : 0 < k) :
    (digitsOf n).length ≤ k ↔ n < 10 ^ k :=
  Nat.length_toDigits_le_iff (by decide) h

/-- Dividing by ten takes the last digit off. -/
theorem digitsOf_of_ten_le {n : Nat} (h : 10 ≤ n) :
    digitsOf n = digitsOf (n / 10) ++ [(n % 10).digitChar] :=
  Nat.toDigits_of_base_le (by decide) h

/-! ## What digits stand for -/

theorem natOfDigits_eq (cs : List Char) : natOfDigits cs = Nat.ofDigitChars 10 cs 0 := by
  rw [Nat.ofDigitChars_eq_foldl]
  rfl

theorem natOfDigits_digitsOf (n : Nat) : natOfDigits (digitsOf n) = n := by
  rw [natOfDigits_eq]
  exact Nat.ofDigitChars_ten_toDigits

theorem natOfDigits_append (cs ds : List Char) :
    natOfDigits (cs ++ ds) = natOfDigits cs * 10 ^ ds.length + natOfDigits ds := by
  simp only [natOfDigits_eq]
  rw [Nat.ofDigitChars_append, Nat.ofDigitChars_eq_ofDigitChars_zero, Nat.mul_comm]

theorem natOfDigits_zeros (n : Nat) : natOfDigits (zeros n) = 0 := by
  rw [natOfDigits_eq, zeros, Nat.ofDigitChars_replicate_zero, Nat.mul_zero]

/-- The cap on exponents is not met below `10 * 2 ^ 16`. -/
theorem exponentOfDigits_digitsOf {n : Nat} (h : n < 10 * 2 ^ 16) :
    exponentOfDigits (digitsOf n) = n := by
  have key (cs : List Char) (a : Nat) (h : Nat.ofDigitChars 10 cs a < 10 * 2 ^ 16) :
      cs.foldl (fun n c => if n < 2 ^ 16 then 10 * n + (c.toNat - '0'.toNat) else n) a =
        Nat.ofDigitChars 10 cs a := by
    induction cs generalizing a with
    | nil => simp
    | cons c cs ih =>
      rw [List.foldl_cons]
      by_cases ha : a < 2 ^ 16
      · rw [if_pos ha]
        rw [Nat.ofDigitChars_cons] at h ⊢
        exact ih _ h
      · rw [Nat.ofDigitChars_eq_ofDigitChars_zero, List.length_cons, Nat.pow_succ'] at h
        have : 10 * 2 ^ 16 ≤ 10 * 10 ^ cs.length * a := by
          have : 1 ≤ 10 ^ cs.length := Nat.pow_pos (by decide)
          calc
            10 * 2 ^ 16 ≤ 10 * 10 ^ cs.length * 2 ^ 16 := by omega
            _ ≤ 10 * 10 ^ cs.length * a := Nat.mul_le_mul_left _ (by omega)
        omega
  have hd : Nat.ofDigitChars 10 (digitsOf n) 0 = n := Nat.ofDigitChars_ten_toDigits
  unfold exponentOfDigits
  rw [key _ _ (by omega), hd]

/-! ## Runs of digits in a text -/

theorem takeWhile_isDigit {ds rest : List Char} (hd : ∀ c ∈ ds, isDigit c = true)
    (hr : ∀ c ∈ rest.head?, isDigit c = false) :
    (ds ++ rest).takeWhile isDigit = ds ∧ (ds ++ rest).dropWhile isDigit = rest := by
  have nil : rest.takeWhile isDigit = [] ∧ rest.dropWhile isDigit = rest := by
    cases rest with
    | nil => exact ⟨rfl, rfl⟩
    | cons c rest =>
      have := hr c rfl
      simp [this]
  rw [List.takeWhile_append_of_pos hd, List.dropWhile_append_of_pos hd, nil.1, nil.2,
    List.append_nil]
  exact ⟨rfl, rfl⟩

end LuaGraph.Decimal
