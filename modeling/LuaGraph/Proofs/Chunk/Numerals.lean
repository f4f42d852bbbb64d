import LuaGraph.Proofs.Chunk.Spelling
import LuaGraph.Proofs.Decimal.ReadBack
import LuaGraph.Proofs.Decimal.Shortest

/-!
# Reading numerals

Every number is written (`format_number`) so that its tokens do not depend on what follows, as long
as neither a letter, nor a digit, nor a point does. A minus sign is a token of its own, and the
numbers without a literal are several tokens in parentheses.

Results: `reads_digits`, `reads_finiteText`, `reads_numeral`.
-/

namespace LuaGraph.Chunk

open Decimal Binary64

/-! ## The extent of a numeral -/

theorem numeralLength_of_ends {rest : List Char} (h : Ends rest) :
    numeralLength false rest = 0 := by
  cases rest with
  | nil => rfl
  | cons c rest =>
    obtain ⟨hpart, hdot⟩ := h c rfl
    have hdigit : isDigit c = false := by
      cases hc : isDigit c with
      | false => rfl
      | true => exact absurd (isPart_of_isDigit hc) (by simp [hpart])
    have he : c ≠ 'e' := by
      rintro rfl
      exact absurd hpart (by decide)
    have hE : c ≠ 'E' := by
      rintro rfl
      exact absurd hpart (by decide)
    simp [numeralLength, hdigit, hdot, he, hE]

/-- Digits and points belong to a numeral. -/
theorem numeralLength_plain {cs : List Char} (h : ∀ c ∈ cs, isDigit c = true ∨ c = '.')
    (hne : cs ≠ []) (afterLetter : Bool) (rest : List Char) :
    numeralLength afterLetter (cs ++ rest) = numeralLength false rest + cs.length := by
  induction cs generalizing afterLetter with
  | nil => exact absurd rfl hne
  | cons c cs ih =>
    have hc : (isDigit c || c == '.') = true := by
      simpa using h c (List.mem_cons_self ..)
    rw [List.cons_append, numeralLength, if_pos hc, List.length_cons, ← Nat.add_assoc]
    cases cs with
    | nil => rfl
    | cons d cs => rw [ih (fun e he => h e (List.mem_cons_of_mem c he)) (by simp)]

theorem numeralLength_exponentText (power : Int) {rest : List Char} (h : Ends rest) :
    numeralLength false (exponentText power ++ rest) = (exponentText power).length := by
  have hdigits : ∀ c ∈ digitsOf power.natAbs, isDigit c = true ∨ c = '.' := fun c hc =>
    .inl (isDigit_of_mem_digitsOf hc)
  have hplain (b : Bool) := numeralLength_plain hdigits (digitsOf_ne_nil _) b rest
  rw [numeralLength_of_ends h] at hplain
  unfold exponentText
  rw [List.cons_append, numeralLength, if_neg (by decide), if_pos (by decide), List.length_cons]
  split
  · rw [List.cons_append, numeralLength, if_neg (by decide), if_neg (by decide),
      if_pos (by decide), hplain, List.length_cons, Nat.zero_add]
  · rw [hplain, Nat.zero_add]

/-! ## Literals -/

/-- The form of a literal: a digit, then digits and points, then perhaps an exponent. -/
def IsLiteral (cs : List Char) : Prop :=
  ∃ c plain tail, cs = c :: plain ++ tail ∧ isDigit c = true ∧
    (∀ d ∈ plain, isDigit d = true ∨ d = '.') ∧ (tail = [] ∨ ∃ power, tail = exponentText power)

theorem isLiteral_digitsOf (n : Nat) : IsLiteral (digitsOf n) := by
  have hdigits : ∀ c ∈ digitsOf n, isDigit c = true := fun c => isDigit_of_mem_digitsOf
  cases hd : digitsOf n with
  | nil => exact absurd hd (digitsOf_ne_nil n)
  | cons c cs =>
    rw [hd] at hdigits
    exact ⟨c, cs, [], (List.append_nil _).symm, hdigits c (List.mem_cons_self ..),
      fun d hd => .inl (hdigits d (List.mem_cons_of_mem c hd)), .inl rfl⟩

/-- Digits and points that start with a digit make a literal. -/
theorem isLiteral_append (ds es : List Char) {tail : List Char} (hd : ∀ c ∈ ds, isDigit c = true)
    (hne : ds ≠ []) (he : ∀ c ∈ es, isDigit c = true ∨ c = '.')
    (ht : tail = [] ∨ ∃ p, tail = exponentText p) : IsLiteral (ds ++ es ++ tail) := by
  cases ds with
  | nil => exact absurd rfl hne
  | cons c ds =>
    obtain ⟨hc, hds⟩ := List.forall_mem_cons.1 hd
    exact ⟨c, ds ++ es, tail, rfl, hc, List.forall_mem_append.2 ⟨fun d h => .inl (hds d h), he⟩, ht⟩

theorem isLiteral_plain (ds es : List Char) (hd : ∀ c ∈ ds, isDigit c = true) (hne : ds ≠ [])
    (he : ∀ c ∈ es, isDigit c = true ∨ c = '.') : IsLiteral (ds ++ es) := by
  have := isLiteral_append ds es hd hne he (.inl rfl)
  rwa [List.append_nil] at this

theorem isLiteral_positionalText (d : Decimal) :
    IsLiteral (positionalText Number.floatStyle d) := by
  have hds : ∀ c ∈ digitsOf d.digits, isDigit c = true := fun c => isDigit_of_mem_digitsOf
  have hzeros (n : Nat) : ∀ c ∈ zeros n, isDigit c = true ∨ c = '.' :=
    fun c hc => .inl (isDigit_of_mem_zeros hc)
  have hpoint : isDigit '.' = true ∨ '.' = '.' := .inr rfl
  unfold positionalText
  dsimp only
  split
  · rw [if_pos (show Number.floatStyle.pointZero = true from rfl), List.append_assoc]
    refine isLiteral_plain _ _ hds (digitsOf_ne_nil d.digits) ?_
    refine List.forall_mem_append.2 ⟨hzeros _, List.forall_mem_cons.2 ⟨hpoint, ?_⟩⟩
    exact hzeros 1
  · split
    · refine isLiteral_plain _ _ (fun c hc => hds c (List.mem_of_mem_take hc)) ?_ ?_
      · intro hnil
        have := congrArg List.length hnil
        simp only [List.length_take, List.length_nil] at this
        omega
      · exact List.forall_mem_cons.2 ⟨hpoint, fun c hc => .inl (hds c (List.mem_of_mem_drop hc))⟩
    · refine isLiteral_plain ['0'] _ (fun c hc => isDigit_of_mem_zeros (show c ∈ zeros 1 from hc))
        (by simp) ?_
      exact List.forall_mem_cons.2 ⟨hpoint,
        List.forall_mem_append.2 ⟨hzeros _, fun c hc => .inl (hds c hc)⟩⟩

theorem isLiteral_scientificText (d : Decimal) : IsLiteral (scientificText d) := by
  have hds : ∀ c ∈ digitsOf d.digits, isDigit c = true := fun c => isDigit_of_mem_digitsOf
  refine isLiteral_append _ _ (fun c hc => hds c (List.mem_of_mem_take hc)) ?_ ?_ (.inr ⟨_, rfl⟩)
  · intro hnil
    exact (List.take_eq_nil_iff.1 hnil).elim (by decide) (digitsOf_ne_nil d.digits)
  · split
    · exact List.forall_mem_nil _
    · exact List.forall_mem_cons.2 ⟨.inr rfl, fun c hc => .inl (hds c (List.mem_of_mem_drop hc))⟩

/-- The text of a decimal is a literal, and not one of an integer. -/
theorem isLiteral_text (d : Decimal) : IsLiteral (text Number.floatStyle d) ∧
    (text Number.floatStyle d).all isDigit = false := by
  have hdot : isDigit '.' = false := by decide
  have hletter : isDigit 'e' = false := by decide
  unfold text
  dsimp only
  split
  · refine ⟨isLiteral_positionalText d, ?_⟩
    unfold positionalText
    dsimp only
    split
    · simp [Number.floatStyle, hdot]
    · split <;> simp [hdot]
  · exact ⟨isLiteral_scientificText d, by simp [scientificText, hletter]⟩

/-! ## Reading literals -/

theorem scanNumber_of_ne {c : Char} {cs : List Char}
    (h : ∀ d ∈ cs.head?, d ≠ 'x' ∧ d ≠ 'X') : scanNumber (c :: cs) = scanDecimal (c :: cs) := by
  unfold scanNumber
  split
  · exact absurd rfl (h 'x' (by simp_all)).1
  · exact absurd rfl (h 'X' (by simp_all)).2
  · rfl

namespace IsLiteral

variable {cs rest : List Char} {c : Char}

/-- A literal is taken whole, and nothing else. -/
theorem numeralLength_eq (h : IsLiteral cs) (hr : Ends rest) :
    numeralLength false (cs ++ rest) = cs.length := by
  obtain ⟨c, plain, tail, rfl, hc, hplain, htail⟩ := h
  have hall : ∀ d ∈ c :: plain, isDigit d = true ∨ d = '.' :=
    List.forall_mem_cons.2 ⟨.inl hc, hplain⟩
  have htail' : numeralLength false (tail ++ rest) = tail.length := by
    rcases htail with rfl | ⟨power, rfl⟩
    · exact numeralLength_of_ends hr
    · exact numeralLength_exponentText power hr
  rw [List.append_assoc, numeralLength_plain hall (by simp), htail', List.length_append,
    Nat.add_comm]

/-- A literal does not start like a hexadecimal one. -/
theorem next_ne (h : IsLiteral (c :: cs)) (hr : Ends rest) :
    ∀ d ∈ (cs ++ rest).head?, d ≠ 'x' ∧ d ≠ 'X' := by
  obtain ⟨c, plain, tail, heq, hc, hplain, htail⟩ := h
  obtain ⟨rfl, rfl⟩ := List.cons.inj heq
  intro d hd
  cases plain with
  | cons p plain =>
    cases hd
    have hp := hplain d (List.mem_cons_self ..)
    constructor <;> rintro rfl <;> exact absurd hp (by decide)
  | nil =>
    rcases htail with rfl | ⟨power, rfl⟩
    · have := (hr d hd).1
      constructor <;> rintro rfl <;> exact absurd this (by decide)
    · obtain rfl : 'e' = d := by simpa [exponentText] using hd
      decide

/-- A literal is scanned to its end and as the number that it is. -/
theorem scanNumber_eq {token : Token} (h : IsLiteral cs) (hr : Ends rest)
    (hvalue : (if cs.all isDigit && decide (natOfDigits cs < 2 ^ 63) then
      some (.integer (Int64.ofNat (natOfDigits cs))) else
      (Decimal.read? cs).map fun d => .float d.toFloat) = some token) :
    scanNumber (cs ++ rest) = .ok (token, cs.length) := by
  have hany : rest.head?.any Text.Name.isPart = false := by
    cases hrest : rest.head? with
    | none => rfl
    | some d => exact (hr d hrest).1
  have hdecimal : scanDecimal (cs ++ rest) = .ok (token, cs.length) := by
    unfold scanDecimal
    dsimp only
    rw [h.numeralLength_eq hr, List.drop_left, List.take_left, hany, if_neg (by simp)]
    split at hvalue
    · rename_i hint
      rw [if_pos hint]
      cases hvalue
      rfl
    · rename_i hint
      rw [if_neg hint]
      obtain ⟨d, hd, rfl⟩ := Option.map_eq_some_iff.1 hvalue
      rw [hd]
  cases cs with
  | nil =>
    obtain ⟨c, plain, tail, heq, -⟩ := h
    cases heq
  | cons c cs =>
    rw [List.cons_append] at hdecimal ⊢
    rw [scanNumber_of_ne (h.next_ne hr), hdecimal]

end IsLiteral

/-- A literal is read as the number that it is. -/
theorem reads_of_isLiteral {cs rest : List Char} {token : Token} (h : IsLiteral cs)
    (hr : Ends rest)
    (hvalue : (if cs.all isDigit && decide (natOfDigits cs < 2 ^ 63) then
      some (.integer (Int64.ofNat (natOfDigits cs))) else
      (Decimal.read? cs).map fun d => .float d.toFloat) = some token) :
    Reads cs [token] rest := by
  have hscan := h.scanNumber_eq hr hvalue
  obtain ⟨c, plain, tail, rfl, hc, -, -⟩ := h
  have hstart : Text.Name.isStart c = false :=
    Bool.eq_false_iff.2 fun hs => absurd hc (by simp [isDigit_of_isStart hs])
  have hdash : c ≠ '-' := by
    rintro rfl
    exact absurd hc (by decide)
  rw [List.cons_append, List.cons_append] at hscan
  rw [List.cons_append]
  refine reads_token ?_
  simp only [scanPiece, isBlank_of_isPart (isPart_of_isDigit hc), hdash, hstart, hc, hscan,
    Bool.true_or]
  rfl

/-- **Digits are read as an integer** if it is not too large. -/
theorem reads_digits {n : Nat} (h : n < 2 ^ 63) {rest : List Char} (hr : Ends rest) :
    Reads (digitsOf n) [.integer (Int64.ofNat n)] rest := by
  refine reads_of_isLiteral (isLiteral_digitsOf n) hr ?_
  have hall : (digitsOf n).all isDigit = true :=
    List.all_eq_true.2 fun c hc => isDigit_of_mem_digitsOf hc
  rw [hall, natOfDigits_digitsOf, decide_eq_true h]
  rfl

/-- The magnitude of a finite number is read back from its decimal. -/
theorem reads_shortest {m : Nat} (h : m < infinity) {rest : List Char} (hr : Ends rest) :
    Reads (text Number.floatStyle (shortest m)) [.float (ofMagnitude false m)] rest := by
  obtain ⟨hliteral, hall⟩ := isLiteral_text (shortest m)
  obtain ⟨d, hread, hd⟩ := read?_text (moderate_shortest h)
  refine reads_of_isLiteral hliteral hr ?_
  rw [hall, hread]
  simp only [Bool.false_and, Bool.false_eq_true, if_false, Option.map_some, Decimal.toFloat, hd,
    toMagnitude_shortest h]

/-! ## Tokens of numbers -/

/-- The token of a natural number. -/
def naturalToken (n : Nat) : Token := .integer (Int64.ofNat n)

/-- The tokens after an optional minus sign. -/
def signed (neg : Bool) (ts : List Token) : List Token :=
  if neg then .mark .minus :: ts else ts

/-- The tokens between parentheses. -/
def parenthesised (ts : List Token) : List Token :=
  .mark .openParen :: ts ++ [.mark .closeParen]

/-- The tokens of a number. -/
def numberTokens : Number → List Token
  | .integer i =>
    if i.toInt = -2 ^ 63 then
      parenthesised
        [.mark .minus, naturalToken 9223372036854775807, .mark .minus, naturalToken 1]
    else signed (decide (i.toInt < 0)) [naturalToken i.toInt.natAbs]
  | .float x =>
    if Binary64.isNaN x then parenthesised [naturalToken 0, .mark .slash, naturalToken 0]
    else if isInfinite x then
      parenthesised (signed (negative x) [naturalToken 1, .mark .slash, naturalToken 0])
    else signed (negative x) [.float (ofMagnitude false (magnitude x))]

theorem ends_cons {c : Char} {rest : List Char} (h : Text.Name.isPart c = false ∧ c ≠ '.') :
    Ends (c :: rest) := by
  intro d hd
  cases hd
  exact h

/-- A sign before a text that starts with a digit. -/
theorem reads_signed (neg : Bool) {cs rest : List Char} {ts : List Token}
    (h : ∀ c ∈ cs.head?, isDigit c = true) (hne : cs ≠ []) (hr : Reads cs ts rest) :
    Reads (if neg then '-' :: cs else cs) (signed neg ts) rest := by
  cases neg with
  | false => exact hr
  | true =>
    refine hr.mark (m := .minus) ?_
    cases cs with
    | nil => exact absurd rfl hne
    | cons c cs =>
      intro hc
      cases hc
      exact absurd (h '-' rfl) (by decide)

theorem reads_integerText {n : Int} (h : n.natAbs < 2 ^ 63) {rest : List Char} (hr : Ends rest) :
    Reads (Number.integerText n) (signed (decide (n < 0)) [naturalToken n.natAbs]) rest := by
  have hd : ∀ c ∈ (digitsOf n.natAbs).head?, isDigit c = true := fun c hc =>
    isDigit_of_mem_digitsOf (List.mem_of_mem_head? hc)
  have := reads_signed (decide (n < 0)) hd (digitsOf_ne_nil _) (reads_digits h hr)
  simpa [Number.integerText, naturalToken] using this

/-- **A finite number is read back** with its sign as a token of its own. -/
theorem reads_finiteText {x : Float} (h : magnitude x < infinity) {rest : List Char}
    (hr : Ends rest) : Reads (finiteText Number.floatStyle x)
      (signed (negative x) [.float (ofMagnitude false (magnitude x))]) rest := by
  obtain ⟨⟨c, plain, tail, heq, hc, -, -⟩, -⟩ := isLiteral_text (shortest (magnitude x))
  refine reads_signed _ ?_ (by rw [heq]; simp) (reads_shortest h hr)
  intro d hd
  rw [heq] at hd
  cases hd
  exact hc

/-- A quotient by zero in parentheses. -/
theorem reads_quotient (neg : Bool) {n : Nat} (h : n < 2 ^ 63) (rest : List Char) :
    Reads ('(' :: ((if neg then '-' :: digitsOf n else digitsOf n) ++ ['/', '0', ')']))
      (parenthesised (signed neg [naturalToken n, .mark .slash, naturalToken 0])) rest := by
  have hd : ∀ c ∈ (digitsOf n).head?, isDigit c = true := fun c hc =>
    isDigit_of_mem_digitsOf (List.mem_of_mem_head? hc)
  have hzero : Reads ['0'] [naturalToken 0] (')' :: rest) :=
    reads_digits (n := 0) (by decide) (ends_cons (by decide))
  have hend : Reads ['0', ')'] [naturalToken 0, .mark .closeParen] rest :=
    Reads.cons hzero (reads_mark (m := .closeParen) trivial)
  have hslash : Reads ['/', '0', ')'] [.mark .slash, naturalToken 0, .mark .closeParen] rest :=
    Reads.cons (reads_mark (m := .slash) trivial) hend
  have hends : Ends (['/', '0', ')'] ++ rest) := ends_cons (by decide)
  have hnumber := reads_signed neg hd (digitsOf_ne_nil n) (reads_digits h hends)
  have := Reads.cons (reads_mark (m := .openParen) trivial) (hnumber.append hslash)
  have heq : parenthesised (signed neg [naturalToken n, .mark .slash, naturalToken 0]) =
      [.mark .openParen] ++ (signed neg [naturalToken n] ++
        [.mark .slash, naturalToken 0, .mark .closeParen]) := by
    cases neg <;> rfl
  rw [heq]
  exact this

theorem reads_least (rest : List Char) :
    Reads "(-9223372036854775807 - 1)".toList (numberTokens (.integer Int64.minValue)) rest := by
  have hone : Reads ['1'] [naturalToken 1] (')' :: rest) :=
    reads_digits (n := 1) (by decide) (ends_cons (by decide))
  have hend : Reads [' ', '1', ')'] [naturalToken 1, .mark .closeParen] rest :=
    Reads.cons (reads_blank (by decide) _)
      (Reads.cons hone (reads_mark (m := .closeParen) trivial))
  have hminus : Reads [' ', '-', ' ', '1', ')']
      [.mark .minus, naturalToken 1, .mark .closeParen] rest :=
    Reads.cons (reads_blank (by decide) _)
      (Reads.cons (reads_mark (m := .minus) (by simp [Mark.Stands])) hend)
  have hends : Ends ([' ', '-', ' ', '1', ')'] ++ rest) := ends_cons (by decide)
  have hdigits := reads_digits (n := 9223372036854775807) (by decide) hends
  have htext : "(-9223372036854775807 - 1)".toList =
      '(' :: '-' :: (digitsOf 9223372036854775807 ++ [' ', '-', ' ', '1', ')']) := by
    decide +kernel
  have hdash :
      Mark.minus.Stands (digitsOf 9223372036854775807 ++ [' ', '-', ' ', '1', ')'] ++ rest) := by
    rw [show digitsOf 9223372036854775807 = '9' :: "223372036854775807".toList by decide +kernel]
    simp [Mark.Stands]
  have htokens : numberTokens (.integer Int64.minValue) = [.mark .openParen] ++ ([.mark .minus] ++
      ([naturalToken 9223372036854775807] ++
        [.mark .minus, naturalToken 1, .mark .closeParen])) := by
    rfl
  rw [htext, htokens]
  exact Reads.cons (reads_mark (m := .openParen) trivial)
    (Reads.cons (reads_mark (m := .minus) hdash) (hdigits.append hminus))

/-- **The numeral of a number is read as its tokens.** -/
theorem reads_numeral (n : Number) {rest : List Char} (hr : Ends rest) :
    Reads n.numeral.toList (numberTokens n) rest := by
  cases n with
  | integer i =>
    by_cases hmin : i.toInt = -2 ^ 63
    · obtain rfl : i = Int64.minValue := Int64.toInt_inj.1 (by rw [hmin]; rfl)
      exact reads_least rest
    · have h₁ := i.le_toInt
      have h₂ := i.toInt_lt
      rw [Number.numeral, if_neg hmin, String.toList_ofList, numberTokens, if_neg hmin]
      exact reads_integerText (by omega) hr
  | float x =>
    unfold Number.numeral numberTokens
    dsimp only
    by_cases hnan : Binary64.isNaN x = true
    · rw [if_pos hnan, if_pos hnan]
      exact reads_quotient false (n := 0) (by decide) rest
    · rw [if_neg hnan, if_neg hnan]
      by_cases hinf : isInfinite x = true
      · rw [if_pos hinf, if_pos hinf]
        cases negative x
        · exact reads_quotient false (n := 1) (by decide) rest
        · exact reads_quotient true (n := 1) (by decide) rest
      · rw [if_neg hinf, if_neg hinf, String.toList_ofList]
        refine reads_finiteText ?_ hr
        simp only [Binary64.isNaN, isInfinite, decide_eq_true_eq, beq_iff_eq] at hnan hinf
        omega

end LuaGraph.Chunk
