import LuaGraph.Number
import LuaGraph.Proofs.Binary64.Rounding
import LuaGraph.Proofs.Decimal.Digits

/-!
# Reading written decimals

The text of a decimal, as `format_number` puts it out, is a run of digits and points that starts
with a digit, and perhaps an exponent. Reading it gives a decimal that rounds to the same magnitude:
the same digits and the same exponent, unless zeros were written out in place of an exponent.

Result: `read?_text`.
-/

namespace LuaGraph.Decimal

open Binary64

/-! ## Reading -/

theorem read?_point (whole fraction : List Char) {tail : List Char}
    (hw : ∀ c ∈ whole, isDigit c = true)
    (hf : ∀ c ∈ fraction, isDigit c = true) (ht : ∀ c ∈ tail.head?, isDigit c = false)
    (ne : whole ++ fraction ≠ []) {e : Int} (he : exponent? tail = some e) :
    read? (whole ++ '.' :: (fraction ++ tail)) =
      some ⟨natOfDigits (whole ++ fraction), e - fraction.length⟩ := by
  have hp : ∀ c ∈ ('.' :: (fraction ++ tail)).head?, isDigit c = false := by simp [isDigit]
  obtain ⟨h₁, h₂⟩ := takeWhile_isDigit hw hp
  obtain ⟨h₃, h₄⟩ := takeWhile_isDigit hf ht
  unfold read?
  simp only [h₁, h₂, h₃, h₄, if_neg ne, he]
  rfl

theorem read?_whole {whole tail : List Char} (hw : ∀ c ∈ whole, isDigit c = true)
    (ht : ∀ c ∈ tail.head?, isDigit c = false) (hp : tail.head? ≠ some '.')
    (ne : whole ≠ []) {e : Int} (he : exponent? tail = some e) :
    read? (whole ++ tail) = some ⟨natOfDigits whole, e⟩ := by
  obtain ⟨h₁, h₂⟩ := takeWhile_isDigit hw ht
  unfold read?
  rw [h₁, h₂]
  split
  rename_i fraction tail' heq
  have : fraction = [] ∧ tail' = tail := by
    split at heq
    · simp at hp
    · simp_all
  simp [this.1, this.2, ne, he]

/-! ## Exponents -/

/-- An exponent as it is written. -/
def exponentText (power : Int) : List Char :=
  'e' :: (if power < 0 then '-' :: digitsOf power.natAbs else digitsOf power.natAbs)

theorem exponent?_exponentText {power : Int} (h : power.natAbs < 10 * 2 ^ 16) :
    exponent? (exponentText power) = some power := by
  have hall : (digitsOf power.natAbs).all isDigit = true :=
    List.all_eq_true.2 fun c hc => isDigit_of_mem_digitsOf hc
  have hne := digitsOf_ne_nil power.natAbs
  have hval := exponentOfDigits_digitsOf h
  unfold exponentText exponent?
  by_cases hneg : power < 0
  · rw [if_pos hneg]
    dsimp only
    rw [if_pos (.inl rfl), if_pos ⟨hne, hall⟩]
    show some (-1 * (exponentOfDigits (digitsOf power.natAbs) : Int)) = some power
    rw [hval]
    exact congrArg some (by omega)
  · rw [if_neg hneg]
    dsimp only
    rw [if_pos (.inl rfl)]
    have hd : ∀ c ∈ (digitsOf power.natAbs).head?, isDigit c = true := fun c hc =>
      isDigit_of_mem_digitsOf (List.mem_of_mem_head? hc)
    split
    · rename_i heq
      rw [heq] at hd
      exact absurd (hd '+' rfl) (by decide)
    · rename_i heq
      rw [heq] at hd
      exact absurd (hd '-' rfl) (by decide)
    · rw [if_pos ⟨hne, hall⟩, hval]
      exact congrArg some (by omega)

/-! ## Decimals of one value -/

/-- Zeros may be moved from the exponent to the digits. -/
theorem toMagnitude_shift (n e : Nat) (he : e ≤ 400) :
    toMagnitude ⟨n * 10 ^ (e + 1), -1⟩ = toMagnitude ⟨n, e⟩ := by
  unfold toMagnitude
  dsimp only
  by_cases hn : n = 0
  · rw [if_pos hn, if_pos (by rw [hn, Nat.zero_mul])]
  · have hpow : 0 < 10 ^ (e + 1) := Nat.pow_pos (by decide)
    rw [if_neg hn, if_neg (Nat.mul_ne_zero hn (Nat.ne_of_gt hpow)), if_neg (by decide),
      if_neg (by omega), if_neg (by omega), if_neg (by omega)]
    have := nearest_mul_mul (c := 10) (by decide) (n * 10 ^ e) 1
    rw [Nat.mul_assoc, ← Nat.pow_succ] at this
    simpa using this

/-! ## Texts -/

/-- The exponents of the decimals that are written, and the lengths of their digits, are far below
the cap on exponents. -/
def Moderate (d : Decimal) : Prop :=
  -10000 ≤ d.exponent ∧ d.exponent + (digitsOf d.digits).length ≤ 10000

variable {d : Decimal}

theorem read?_positionalText (h : d.exponent ≤ 400) :
    ∃ d' : Decimal, read? (positionalText Number.floatStyle d) = some d' ∧
      d'.toMagnitude = d.toMagnitude := by
  have hds : ∀ c ∈ digitsOf d.digits, isDigit c = true := fun c => isDigit_of_mem_digitsOf
  have hne := digitsOf_ne_nil d.digits
  have hend : ∀ c ∈ ([] : List Char).head?, isDigit c = false := by simp
  unfold positionalText
  dsimp only
  by_cases he : 0 ≤ d.exponent
  · rw [if_pos he, if_pos (show Number.floatStyle.pointZero = true from rfl)]
    refine ⟨⟨d.digits * 10 ^ (d.exponent.toNat + 1), -1⟩, ?_, ?_⟩
    · have := read?_point (digitsOf d.digits ++ zeros d.exponent.toNat) ['0']
        (fun c hc => (List.mem_append.1 hc).elim (hds c) isDigit_of_mem_zeros)
        (fun c hc => isDigit_of_mem_zeros (show c ∈ zeros 1 from hc)) hend (by simp) rfl
      rw [show ['.', '0'] = '.' :: (['0'] ++ []) from rfl, this]
      rw [natOfDigits_append, natOfDigits_append, natOfDigits_digitsOf, natOfDigits_zeros]
      simp [zeros, natOfDigits, Nat.pow_succ, Nat.mul_assoc]
    · rw [toMagnitude_shift _ _ (by omega)]
      congr
      exact Int.toNat_of_nonneg he
  · rw [if_neg he]
    refine ⟨d, ?_, rfl⟩
    by_cases hlen : (-d.exponent).toNat < (digitsOf d.digits).length
    · rw [if_pos hlen]
      generalize hk : (digitsOf d.digits).length - (-d.exponent).toNat = k
      have := read?_point ((digitsOf d.digits).take k) ((digitsOf d.digits).drop k)
        (fun c hc => hds c (List.mem_of_mem_take hc)) (fun c hc => hds c (List.mem_of_mem_drop hc))
        hend (by rwa [List.take_append_drop]) rfl
      rw [List.append_nil] at this
      rw [this, List.take_append_drop, natOfDigits_digitsOf, List.length_drop]
      congr
      omega
    · rw [if_neg hlen]
      generalize hk : (-d.exponent).toNat - (digitsOf d.digits).length = k
      have := read?_point ['0'] (zeros k ++ digitsOf d.digits)
        (fun c hc => isDigit_of_mem_zeros (show c ∈ zeros 1 from hc))
        (fun c hc => (List.mem_append.1 hc).elim isDigit_of_mem_zeros (hds c))
        hend (by simp) rfl
      rw [List.append_nil] at this
      rw [show '0' :: '.' :: zeros k ++ digitsOf d.digits =
        ['0'] ++ '.' :: (zeros k ++ digitsOf d.digits) by simp, this]
      rw [natOfDigits_append, natOfDigits_append, natOfDigits_digitsOf, natOfDigits_zeros]
      simp [zeros, natOfDigits]
      congr
      omega

theorem read?_scientificText (h : Moderate d) : read? (scientificText d) = some d := by
  have hds : ∀ c ∈ digitsOf d.digits, isDigit c = true := fun c => isDigit_of_mem_digitsOf
  have hpos := length_digitsOf_pos d.digits
  obtain ⟨h₁, h₂⟩ := h
  generalize hp : d.exponent + ((digitsOf d.digits).length - 1 : Nat) = power
  have hexp : exponent? (exponentText power) = some power := exponent?_exponentText (by omega)
  have heq : scientificText d = (digitsOf d.digits).take 1 ++
      ((if (digitsOf d.digits).length = 1 then [] else '.' :: (digitsOf d.digits).drop 1) ++
        exponentText power) := by
    unfold scientificText exponentText
    dsimp only
    rw [hp, List.append_assoc]
  have hval := natOfDigits_digitsOf d.digits
  rw [heq]
  by_cases hlen : (digitsOf d.digits).length = 1
  · have htake : (digitsOf d.digits).take 1 = digitsOf d.digits := List.take_of_length_le (by omega)
    rw [if_pos hlen, htake, List.nil_append,
      read?_whole hds (by simp [exponentText, isDigit]) (by simp [exponentText])
        (digitsOf_ne_nil _) hexp, hval]
    congr
    omega
  · rw [if_neg hlen, List.cons_append,
      read?_point _ _ (fun c hc => hds c (List.mem_of_mem_take hc))
        (fun c hc => hds c (List.mem_of_mem_drop hc)) (by simp [exponentText, isDigit])
        (by rw [List.take_append_drop]; exact digitsOf_ne_nil _) hexp,
      List.take_append_drop, hval, List.length_drop]
    congr
    omega

/-- **What is written is read as a decimal of the same magnitude.** -/
theorem read?_text (h : Moderate d) :
    ∃ d' : Decimal, read? (text Number.floatStyle d) = some d' ∧
      d'.toMagnitude = d.toMagnitude := by
  unfold text
  dsimp only
  split
  · rename_i hpos
    have hlead : d.exponent + ((digitsOf d.digits).length - 1 : Nat) ≤ 15 :=
      (of_decide_eq_true hpos).2
    exact read?_positionalText (by omega)
  · exact ⟨d, read?_scientificText h, rfl⟩

end LuaGraph.Decimal
