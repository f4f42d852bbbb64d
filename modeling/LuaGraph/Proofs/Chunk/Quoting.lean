import LuaGraph.Proofs.Chunk.Spelling
import LuaGraph.Proofs.Decimal.Digits
import LuaGraph.Text.Quoted

/-!
# Reading quoted strings and comments

A quoted string (`quote_string`) is read back as the string it was made from, and a comment
(`long_comment`) as nothing, whatever they hold and whatever follows them.

Results: `reads_literal`, `reads_comment`.
-/

namespace LuaGraph.Chunk

open Text

/-! ## Characters between quotes -/

/-- A character of the basic alphabet is one byte. -/
theorem toUTF8_singleton {c : Char} (h : c.toNat < 128) :
    (String.singleton c).toUTF8 = ⟨#[UInt8.ofNat c.toNat]⟩ := by
  have hval : c.val.toNat ≤ 127 := by
    unfold Char.toNat at h
    omega
  have : String.utf8EncodeChar c = [UInt8.ofNat c.toNat] := by
    simp only [String.utf8EncodeChar, Char.toNat, hval, if_true]
  rw [String.toUTF8, ← String.utf8Encode_toList, String.toList_singleton,
    List.utf8Encode_singleton, this]
  rfl

theorem digit_toNat {d : Nat} (h : d < 10) : (Quoted.digit d).toNat = 48 + d := by
  rcases d with _ | _ | _ | _ | _ | _ | _ | _ | _ | _ | d <;> first | rfl | omega

theorem isDigit_digit {d : Nat} (h : d < 10) : Decimal.isDigit (Quoted.digit d) = true := by
  rcases d with _ | _ | _ | _ | _ | _ | _ | _ | _ | _ | d <;> first | rfl | omega

/-- Three digits after a backslash stand for a byte, whatever follows. -/
theorem scanEscape_threeDigits {n : Nat} (h : n < 256) (cs : List Char) :
    scanEscape (Quoted.threeDigits n ++ cs) = .ok (⟨#[UInt8.ofNat n]⟩, 3) := by
  have h₁ : n / 100 < 10 := by omega
  have h₂ : n / 10 % 10 < 10 := by omega
  have h₃ : n % 10 < 10 := by omega
  have hsimple : ∀ d < 10, simpleEscape? (Quoted.digit d) = none := by decide
  have hletter : ∀ d < 10, Quoted.digit d ≠ 'z' ∧ Quoted.digit d ≠ 'x' ∧ Quoted.digit d ≠ 'u' := by
    decide
  obtain ⟨hz, hx, hu⟩ := hletter _ h₁
  have hvalue : Decimal.natOfDigits (Quoted.threeDigits n) = n := by
    simp [Decimal.natOfDigits, Quoted.threeDigits, digit_toNat h₁, digit_toNat h₂, digit_toNat h₃]
    omega
  have hdigits : (Quoted.threeDigits n ++ cs).take 3 = Quoted.threeDigits n := rfl
  have hall : (Quoted.threeDigits n).takeWhile Decimal.isDigit = Quoted.threeDigits n := by
    simp [Quoted.threeDigits, isDigit_digit h₁, isDigit_digit h₂, isDigit_digit h₃]
  have hbyte : scanDecimalByte (Quoted.threeDigits n ++ cs) = .ok (⟨#[UInt8.ofNat n]⟩, 3) := by
    unfold scanDecimalByte
    dsimp only
    rw [hdigits, hall, hvalue]
    simp [h, Quoted.threeDigits]
  rw [Quoted.threeDigits] at hbyte ⊢
  simp only [List.cons_append] at hbyte ⊢
  rw [scanEscape]
  simp only [hsimple _ h₁, hz, hx, hu, isDigit_digit h₁, if_true, if_false]
  exact hbyte

/-- A character with a letter of its own is of the basic alphabet, and the letter is read as it. -/
theorem scanEscape_escapeLetter {c e : Char} (h : Quoted.escapeLetter? c = some e)
    (cs : List Char) :
    c.toNat < 128 ∧ scanEscape (e :: cs) = .ok (⟨#[UInt8.ofNat c.toNat]⟩, 1) := by
  unfold Quoted.escapeLetter? at h
  split at h
  all_goals
    cases h <;> rename_i heq <;> exact ⟨by omega, by rw [heq]; rfl⟩

/-- A character that stands for itself is neither a newline, nor a quote, nor a backslash. -/
theorem plain_of_escapeLetter? {c : Char} (h : Quoted.escapeLetter? c = none) :
    c ≠ '\n' ∧ c ≠ '"' ∧ c ≠ '\\' := by
  refine ⟨?_, ?_, ?_⟩ <;> rintro rfl <;> exact absurd h (by decide)

/-- One character between quotes is read as its bytes. -/
theorem stringFrom_encodeChar (c : Char) (n : Nat) (bytes : ByteArray) (cs : List Char) :
    stringFrom '"' n bytes (Quoted.encodeChar c ++ cs) =
      stringFrom '"' (n + (Quoted.encodeChar c).length) (bytes ++ (String.singleton c).toUTF8)
        cs := by
  unfold Quoted.encodeChar
  cases he : Quoted.escapeLetter? c with
  | some e =>
    obtain ⟨hc, hscan⟩ := scanEscape_escapeLetter he cs
    simp only [List.cons_append, List.nil_append]
    rw [stringFrom, if_neg (by decide), if_neg (by decide), if_pos rfl, hscan, toUTF8_singleton hc]
    rfl
  | none =>
    dsimp only
    by_cases hc : Quoted.isControl c = true
    · have hlt : c.toNat < 128 := by
        simp only [Quoted.isControl, Bool.or_eq_true, decide_eq_true_eq, beq_iff_eq] at hc
        omega
      rw [if_pos hc, List.cons_append, stringFrom, if_neg (by decide), if_neg (by decide),
        if_pos rfl, scanEscape_threeDigits (by omega), toUTF8_singleton hlt]
      rfl
    · obtain ⟨h₁, h₂, h₃⟩ := plain_of_escapeLetter? he
      rw [if_neg hc, List.cons_append, List.nil_append, stringFrom, if_neg h₁, if_neg h₂, if_neg h₃]
      rfl

theorem stringFrom_encode (cs rest : List Char) (n : Nat) (bytes : ByteArray) :
    stringFrom '"' n bytes (Quoted.encode cs ++ '"' :: rest) =
      .ok (bytes ++ cs.utf8Encode, n + (Quoted.encode cs).length + 1) := by
  induction cs generalizing n bytes with
  | nil =>
    rw [Quoted.encode_nil, List.nil_append, stringFrom, if_neg (by decide), if_pos rfl]
    simp
  | cons c cs ih =>
    have hbytes : (c :: cs).utf8Encode = (String.singleton c).toUTF8 ++ cs.utf8Encode := by
      rw [List.utf8Encode_cons, String.toUTF8, ← String.utf8Encode_toList, String.toList_singleton]
    rw [Quoted.encode_cons, List.append_assoc, stringFrom_encodeChar, ih, hbytes,
      ByteArray.append_assoc, List.length_append, Nat.add_assoc n]

/-! ## Strings -/

/-- The bytes of a string are the text of this string and of no other. -/
theorem fromUTF8?_utf8Encode (s : String) : String.fromUTF8? s.toList.utf8Encode = some s := by
  rw [String.utf8Encode_toList, String.fromUTF8?, dif_pos s.isValidUTF8]
  rfl

theorem toList_literal (s : String) :
    (Quoted.literal s).toList = '"' :: (Quoted.encode s.toList ++ ['"']) := by
  rw [Quoted.literal, String.toList_ofList, List.cons_append]

/-- A quoted string is one piece, which ends at the quote that was put there to close it. -/
theorem scanPiece_literal (s : String) (rest : List Char) :
    scanPiece '"' (Quoted.encode s.toList ++ ['"'] ++ rest) =
      .ok (some (.string s), (Quoted.encode s.toList ++ ['"']).length + 1) := by
  have hscan : scanString '"' (Quoted.encode s.toList ++ '"' :: rest) =
      .ok (.string s, 1 + (Quoted.encode s.toList).length + 1) := by
    rw [scanString, stringFrom_encode, ByteArray.empty_append]
    simp only [fromUTF8?_utf8Encode]
  rw [List.append_assoc, List.singleton_append, scanPiece]
  simp only [show Blank.isBlank '"' = false by decide, show Name.isStart '"' = false by decide,
    show Decimal.isDigit '"' = false by decide, show ('"' = '-') = False by decide, hscan]
  simp [Except.map]
  omega

/-- **A quoted string is read as the string it was made from**, whatever follows. -/
theorem reads_literal (s : String) (rest : List Char) :
    Reads (Quoted.literal s).toList [.string s] rest := by
  rw [toList_literal]
  exact reads_token (scanPiece_literal s rest)

/-! ## Comments -/

open LongBracket

theorem findFrom_shift (pattern cs : List Char) (i k : Nat) :
    findFrom pattern cs (i + k) = (findFrom pattern cs i).map (· + k) := by
  induction cs generalizing i with
  | nil => unfold findFrom; split <;> rfl
  | cons c cs ih =>
    unfold findFrom
    split
    · rfl
    · rw [Nat.add_right_comm, ih]

theorem findFrom_bounds {pattern cs : List Char} {i j : Nat}
    (h : findFrom pattern cs i = some j) : i ≤ j ∧ j + pattern.length ≤ i + cs.length := by
  induction cs generalizing i with
  | nil =>
    unfold findFrom at h
    split at h
    · rename_i hp
      rw [List.isEmpty_iff] at hp
      simp_all
    · simp at h
  | cons c cs ih =>
    unfold findFrom at h
    split at h
    · rename_i hp
      have := (List.isPrefixOf_iff_prefix.1 hp).length_le
      simp only [Option.some.injEq] at h
      omega
    · have := ih h
      rw [List.length_cons]
      omega

/-- What is found in a text is found in a longer one. -/
theorem findFrom_append {pattern cs : List Char} {i j : Nat} (h : findFrom pattern cs i = some j)
    (ds : List Char) : findFrom pattern (cs ++ ds) i = some j := by
  induction cs generalizing i with
  | nil =>
    unfold findFrom at h
    split at h
    · rename_i hp
      rw [List.isEmpty_iff] at hp
      subst hp
      cases ds <;> simpa [findFrom] using h
    · simp at h
  | cons c cs ih =>
    unfold findFrom at h
    rw [List.cons_append, findFrom]
    by_cases hp : pattern.isPrefixOf (c :: cs) = true
    · rw [if_pos hp] at h
      have hprefix : pattern <+: c :: (cs ++ ds) :=
        (List.isPrefixOf_iff_prefix.1 hp).trans (List.prefix_append (c :: cs) ds)
      rw [if_pos (List.isPrefixOf_iff_prefix.2 hprefix), h]
    · rw [if_neg hp] at h
      have hbounds := findFrom_bounds h
      have hn : ¬pattern.isPrefixOf (c :: (cs ++ ds)) = true := by
        intro hp'
        have hlen : pattern.length ≤ (c :: cs).length := by
          rw [List.length_cons]
          omega
        exact hp (List.isPrefixOf_iff_prefix.2
          (List.prefix_of_prefix_length_le (List.isPrefixOf_iff_prefix.1 hp')
            (List.prefix_append (c :: cs) ds) hlen))
      rw [if_neg hn]
      exact ih h

theorem length_closing (level : Nat) : (closing level).length = level + 2 := by simp [closing]

/-- A closing bracket does not start inside a text that is not longer than its level. -/
theorem findFrom_closing {level : Nat} {cs : List Char} (h : cs.length ≤ level) (i : Nat) :
    findFrom (closing level) (cs ++ closing level) i = some (i + cs.length) := by
  induction cs generalizing i with
  | nil =>
    have : (closing level).isPrefixOf (closing level) = true := List.isPrefixOf_iff_prefix.2
      (List.prefix_refl _)
    rw [List.nil_append]
    rw [closing, List.cons_append] at this ⊢
    rw [findFrom, if_pos this]
    rfl
  | cons c cs ih =>
    rw [List.length_cons] at h
    have hn : ¬(closing level).isPrefixOf (c :: (cs ++ closing level)) = true := by
      intro hp
      -- the place of the closing bracket after the text falls on an equals sign
      have hlt : cs.length + 1 < (closing level).length := by
        rw [length_closing]
        omega
      have hget := List.prefix_iff_getElem?.1 (List.isPrefixOf_iff_prefix.1 hp) _ hlt
      have hequals : (closing level)[cs.length + 1] = '=' := by
        simp only [closing, List.cons_append, List.getElem_cons_succ]
        rw [List.getElem_append_left (by rw [List.length_replicate]; omega),
          List.getElem_replicate]
      rw [hequals, List.getElem?_cons_succ, List.getElem?_append_right (Nat.le_refl _),
        Nat.sub_self] at hget
      exact absurd hget (by simp [closing])
    rw [List.cons_append, findFrom, if_neg hn, ih (by omega), List.length_cons]
    congr 1
    omega

/-- The search for a level finds one: a closing bracket that is longer than the text is free. -/
theorem find?_freeLevel (cs : List Char) :
    (List.range (cs.length + 1)).find? (isFree cs) = some (freeLevel cs) := by
  have hfree : isFree cs cs.length = true := by
    rw [isFree, closingAt?, findFrom_closing (Nat.le_refl _), Nat.zero_add, beq_self_eq_true]
  unfold freeLevel
  cases h : (List.range (cs.length + 1)).find? (isFree cs) with
  | none =>
    have hnot := List.find?_eq_none.1 h cs.length (List.mem_range.2 (Nat.lt_succ_self _))
    exact absurd hfree hnot
  | some level => rfl

/-- The level that is chosen is free. -/
theorem isFree_freeLevel (cs : List Char) : isFree cs (freeLevel cs) = true :=
  List.find?_some (find?_freeLevel cs)

theorem level?_opening (level : Nat) (cs : List Char) :
    level? (opening level ++ cs) = some level := by
  have htake : ((List.replicate level '=' ++ ['[']) ++ cs).takeWhile (· == '=') =
      List.replicate level '=' := by
    rw [List.append_assoc, List.takeWhile_append_of_pos (by simp)]
    simp
  rw [opening, List.cons_append, List.cons_append, level?]
  rw [htake, List.length_replicate, List.append_assoc, List.drop_left' (List.length_replicate ..)]
  rfl

theorem scanLong_of_drop {level i : Nat} {cs body : List Char} (h : cs.drop (level + 2) = body)
    (hb : body.head? ≠ some '\n') (hi : closingAt? level body = some i) :
    scanLong level cs = .ok (String.ofList (body.take i), level + 2 + i + level + 2) := by
  unfold scanLong
  dsimp only
  rw [h]
  cases body with
  | nil => simp only [hi]
  | cons c body =>
    have hc : c ≠ '\n' := by simpa using hb
    simp [hc, hi]

theorem scanLong_of_drop_newline {level i : Nat} {cs body : List Char}
    (h : cs.drop (level + 2) = '\n' :: body) (hi : closingAt? level body = some i) :
    scanLong level cs = .ok (String.ofList (body.take i), level + 2 + 1 + i + level + 2) := by
  unfold scanLong
  dsimp only
  rw [h]
  simp only [hi]

/-- A text in long brackets ends at the bracket that was put there to close it. -/
theorem scanLong_enclose (cs rest : List Char) :
    ∃ content, scanLong (freeLevel cs) (enclose cs ++ rest) =
      .ok (content, (enclose cs).length) := by
  have hfree := isFree_freeLevel cs
  generalize hl : freeLevel cs = level at hfree
  have hfound : closingAt? level (cs ++ (closing level ++ rest)) = some cs.length := by
    rw [← List.append_assoc]
    exact findFrom_append (beq_iff_eq.1 hfree) rest
  have hopening : (opening level).length = level + 2 := by simp [opening]
  have hbody : (enclose cs ++ rest).drop (level + 2) = cs ++ (closing level ++ rest) := by
    rw [enclose, hl, List.append_assoc, List.append_assoc, List.drop_left' hopening]
  have hlength : (enclose cs).length = level + 2 + cs.length + level + 2 := by
    simp only [enclose, hl, List.length_append, hopening, length_closing]
    omega
  rw [hlength]
  by_cases hnewline : (cs ++ (closing level ++ rest)).head? = some '\n'
  · cases cs with
    | nil => exact absurd hnewline (by simp [closing])
    | cons c cs =>
      obtain rfl : c = '\n' := by simpa using hnewline
      rw [List.cons_append, closingAt?, findFrom, if_neg (by simp [closing]), findFrom_shift]
        at hfound
      obtain ⟨j, hj, hj'⟩ := Option.map_eq_some_iff.1 hfound
      have hscan := scanLong_of_drop_newline hbody hj
      rw [show level + 2 + 1 + j + level + 2 = level + 2 + (j + 1) + level + 2 by omega, hj']
        at hscan
      exact ⟨_, hscan⟩
  · exact ⟨_, scanLong_of_drop hbody hnewline hfound⟩

/-- A comment is one piece without a token, which ends at the bracket that was put there to close
it. -/
theorem scanPiece_comment (cs rest : List Char) :
    scanPiece '-' ('-' :: enclose cs ++ rest) = .ok (none, ('-' :: enclose cs).length + 1) := by
  obtain ⟨content, hscan⟩ := scanLong_enclose cs rest
  have hcomment : scanComment (enclose cs ++ rest) = .ok ((), (enclose cs).length) := by
    have hlevel : level? (enclose cs ++ rest) = some (freeLevel cs) := by
      rw [enclose, List.append_assoc, List.append_assoc]
      exact level?_opening ..
    rw [scanComment, hlevel]
    simp only [hscan]
    rfl
  rw [List.cons_append, scanPiece]
  simp only [show Blank.isBlank '-' = false by decide, List.head?_cons, List.drop_one,
    List.tail_cons,
    hcomment]
  rfl

/-- **A comment is read as nothing**, whatever it holds and whatever follows. -/
theorem reads_comment (shown : String) (rest : List Char) :
    Reads (comment shown).toList [] rest := by
  rw [comment, String.toList_ofList]
  exact reads_nothing (scanPiece_comment shown.toList rest)

end LuaGraph.Chunk
