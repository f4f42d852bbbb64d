import LuaGraph.Chunk.Lexer

/-!
# Texts and their tokens

Which tokens a text is cut into is stated without positions: `Spells cs ts`. Texts are put together
from pieces, and what a piece is depends on the character after it, so a piece is described in
front of the text that follows: `Reads cs ts rest` says that `cs` gives the tokens `ts` and leaves
`rest` to be read as it is.

Results: a text with a spelling is cut into these tokens (`lexFrom_of_spells`), and the spellings of
blanks, words and marks (`reads_blank`, `reads_word`, `reads_mark`).
-/

namespace LuaGraph.Chunk

/-! ## Spellings -/

/-- The characters are cut into pieces which have the given tokens. -/
inductive Spells : List Char → List Token → Prop
  | nil : Spells [] []
  | piece {c : Char} {cs : List Char} {token? : Option Token} {n : Nat} {ts : List Token} :
      scanPiece c cs = .ok (token?, n) → Spells (cs.drop (n - 1)) ts →
        Spells (c :: cs) (token?.toList ++ ts)

/-- **A text with a spelling is cut into its tokens.** -/
theorem lexFrom_of_spells {cs : List Char} {ts : List Token} (h : Spells cs ts) (p : Position)
    (done : Array Lexeme) :
    ∃ lexemes stop, lexFrom p done cs = .ok ⟨done.toList ++ lexemes, stop⟩ ∧
      lexemes.map Lexeme.token = ts := by
  induction h generalizing p done with
  | nil => exact ⟨[], p, by rw [lexFrom, List.append_nil], rfl⟩
  | @piece c cs token? n ts hc _ ih =>
    rw [lexFrom, hc]
    dsimp only
    cases token? with
    | none => exact ih _ done
    | some token =>
      obtain ⟨lexemes, stop, h₁, h₂⟩ := ih (p.after ((c :: cs).take n)) (done.push ⟨token, p⟩)
      refine ⟨⟨token, p⟩ :: lexemes, stop, ?_, by rw [List.map_cons, h₂]; rfl⟩
      rw [h₁, Array.toList_push, List.append_assoc]
      rfl

/-- In front of `rest` the characters give the tokens and end where `rest` begins. -/
def Reads (cs : List Char) (ts : List Token) (rest : List Char) : Prop :=
  ∀ us, Spells rest us → Spells (cs ++ rest) (ts ++ us)

theorem reads_nil (rest : List Char) : Reads [] [] rest := fun _ h => h

theorem Reads.append {cs ds rest : List Char} {ts us : List Token} (h : Reads cs ts (ds ++ rest))
    (h' : Reads ds us rest) : Reads (cs ++ ds) (ts ++ us) rest := by
  intro vs hvs
  rw [List.append_assoc, List.append_assoc]
  exact h _ (h' _ hvs)

theorem Reads.cons {c : Char} {ds rest : List Char} {ts us : List Token}
    (h : Reads [c] ts (ds ++ rest)) (h' : Reads ds us rest) : Reads (c :: ds) (ts ++ us) rest :=
  h.append h'

/-- A piece with one token. -/
theorem Reads.before {cs ds rest : List Char} {t : Token} {us : List Token}
    (h : Reads cs [t] (ds ++ rest)) (h' : Reads ds us rest) : Reads (cs ++ ds) (t :: us) rest :=
  h.append h'

/-- A text that is read in front of nothing has a spelling. -/
theorem Reads.spells {cs : List Char} {ts : List Token} (h : Reads cs ts []) : Spells cs ts := by
  have := h [] .nil
  rwa [List.append_nil, List.append_nil] at this

/-- A single piece. -/
theorem reads_of_scanPiece {c : Char} {cs rest : List Char} {token? : Option Token}
    (h : scanPiece c (cs ++ rest) = .ok (token?, cs.length + 1)) :
    Reads (c :: cs) token?.toList rest := by
  intro us hus
  rw [List.cons_append]
  refine .piece h ?_
  rwa [Nat.add_sub_cancel, List.drop_left]

theorem reads_token {c : Char} {cs rest : List Char} {t : Token}
    (h : scanPiece c (cs ++ rest) = .ok (some t, cs.length + 1)) : Reads (c :: cs) [t] rest :=
  reads_of_scanPiece h

theorem reads_nothing {c : Char} {cs rest : List Char}
    (h : scanPiece c (cs ++ rest) = .ok (none, cs.length + 1)) : Reads (c :: cs) [] rest :=
  reads_of_scanPiece h

/-! ## Characters -/

/-- What follows belongs neither to a word nor to a numeral before it. -/
def Ends (rest : List Char) : Prop :=
  ∀ c ∈ rest.head?, Text.Name.isPart c = false ∧ c ≠ '.'

theorem isPart_of_isDigit {c : Char} (h : Decimal.isDigit c = true) :
    Text.Name.isPart c = true := by
  unfold Text.Name.isPart
  rw [show decide ('0' ≤ c ∧ c ≤ '9') = true from h, Bool.or_true]

theorem isPart_of_isStart {c : Char} (h : Text.Name.isStart c = true) :
    Text.Name.isPart c = true := by
  unfold Text.Name.isPart
  rw [h, Bool.true_or]

/-- The characters of words are the letters, the digits and the underscore. -/
theorem toNat_of_isPart {c : Char} (h : Text.Name.isPart c = true) :
    (48 ≤ c.toNat ∧ c.toNat ≤ 57) ∨ (65 ≤ c.toNat ∧ c.toNat ≤ 90) ∨ c.toNat = 95 ∨
      (97 ≤ c.toNat ∧ c.toNat ≤ 122) := by
  simp only [Text.Name.isPart, Text.Name.isStart, Bool.or_eq_true, decide_eq_true_eq, beq_iff_eq,
    Char.le_def, UInt32.le_iff_toNat_le] at h
  simp only [Char.toNat]
  rcases h with ((h | h) | rfl) | h
  · exact .inr (.inr (.inr h))
  · exact .inr (.inl h)
  · decide
  · exact .inl h

theorem isBlank_of_isPart {c : Char} (h : Text.Name.isPart c = true) :
    Text.Blank.isBlank c = false := by
  have := toNat_of_isPart h
  simp only [Text.Blank.isBlank, Text.Blank.ranges, List.any_cons, List.any_nil]
  simp
  omega

theorem isDigit_of_isStart {c : Char} (h : Text.Name.isStart c = true) :
    Decimal.isDigit c = false := by
  simp only [Text.Name.isStart, Bool.or_eq_true, decide_eq_true_eq, beq_iff_eq, Char.le_def,
    UInt32.le_iff_toNat_le] at h
  simp only [Decimal.isDigit, decide_eq_false_iff_not, Char.le_def, UInt32.le_iff_toNat_le]
  rcases h with (h | h) | rfl
  · have : 'a'.val.toNat = 97 := rfl
    have : '9'.val.toNat = 57 := rfl
    omega
  · have : 'A'.val.toNat = 65 := rfl
    have : '9'.val.toNat = 57 := rfl
    omega
  · decide

/-! ## Blanks -/

theorem reads_blank {c : Char} (h : Text.Blank.isBlank c = true) (rest : List Char) :
    Reads [c] [] rest :=
  reads_nothing (by simp [scanPiece, h])

theorem reads_blanks {cs : List Char} (h : ∀ c ∈ cs, Text.Blank.isBlank c = true)
    (rest : List Char) : Reads cs [] rest := by
  induction cs with
  | nil => exact reads_nil rest
  | cons c cs ih =>
    exact (reads_blank (h c (List.mem_cons_self ..)) _).cons
      (ih fun d hd => h d (List.mem_cons_of_mem c hd))

/-! ## Words -/

/-- The token of a word. -/
def wordToken (s : String) : Token := if Text.Name.isKeyword s then .keyword s else .name s

theorem takeWhile_isPart {cs rest : List Char} (h : ∀ c ∈ cs, Text.Name.isPart c = true)
    (hr : ∀ c ∈ rest.head?, Text.Name.isPart c = false) :
    (cs ++ rest).takeWhile Text.Name.isPart = cs := by
  rw [List.takeWhile_append_of_pos h]
  cases rest with
  | nil => simp
  | cons c rest => simp [hr c rfl]

/-- A word is a piece. -/
theorem scanPiece_word {c : Char} {cs rest : List Char} (h : Text.Name.isWord (c :: cs) = true)
    (hr : ∀ d ∈ rest.head?, Text.Name.isPart d = false) :
    scanPiece c (cs ++ rest) =
      .ok (some (wordToken (String.ofList (c :: cs))), cs.length + 1) := by
  simp only [Text.Name.isWord, Bool.and_eq_true, List.all_eq_true] at h
  obtain ⟨hc, hcs⟩ := h
  have hpart := isPart_of_isStart hc
  have hall : ∀ d ∈ c :: cs, Text.Name.isPart d = true := by simpa [hpart] using hcs
  have hword : (c :: (cs ++ rest)).takeWhile Text.Name.isPart = c :: cs :=
    takeWhile_isPart hall hr
  have hdash : c ≠ '-' := by
    rintro rfl
    exact absurd hpart (by decide)
  simp only [scanPiece, isBlank_of_isPart hpart, hdash, hc, scanWord, hword, wordToken]
  rfl

theorem reads_word {s : String} {rest : List Char} (h : Text.Name.isWord s.toList = true)
    (hr : ∀ c ∈ rest.head?, Text.Name.isPart c = false) :
    Reads s.toList [wordToken s] rest := by
  obtain ⟨cs, rfl⟩ : ∃ cs, s = String.ofList cs := ⟨s.toList, String.ofList_toList.symm⟩
  rw [String.toList_ofList] at h ⊢
  cases cs with
  | nil => cases h
  | cons c cs => exact reads_token (scanPiece_word h hr)

/-! ## Marks -/

/-- What follows a mark does not turn it into a piece of another kind: a comment, a numeral or a
long string. -/
def Mark.Stands : Mark → List Char → Prop
  | minus, rest => rest.head? ≠ some '-'
  | dot, rest => ∀ c ∈ rest.head?, Decimal.isDigit c = false
  | openBracket, rest => ∀ c ∈ rest.head?, c ≠ '[' ∧ c ≠ '='
  | _, _ => True

theorem level?_openBracket {rest : List Char} (h : Mark.openBracket.Stands rest) :
    Text.LongBracket.level? ('[' :: rest) = none := by
  cases rest with
  | nil => rfl
  | cons c rest =>
    obtain ⟨h₁, h₂⟩ := h c rfl
    simp [Text.LongBracket.level?, h₁, h₂]

theorem scanMark_char {m : Mark} {rest : List Char} (h : m.Stands rest) :
    scanMark m.char rest = .ok (.mark m, 1) := by
  have hlevel : Text.LongBracket.level? (m.char :: rest) = none := by
    cases m
    case openBracket => exact level?_openBracket h
    all_goals rfl
  simp only [scanMark, hlevel, Mark.ofChar?_char]

theorem reads_mark {m : Mark} {rest : List Char} (h : m.Stands rest) :
    Reads [m.char] [.mark m] rest := by
  refine reads_token ?_
  have hblank : Text.Blank.isBlank m.char = false := by cases m <;> decide
  have hstart : Text.Name.isStart m.char = false := by cases m <;> decide
  have hdash : ¬(m.char = '-' ∧ rest.head? = some '-') := by
    rintro ⟨h₁, h₂⟩
    cases m
    case minus => exact h h₂
    all_goals exact absurd h₁ (by decide)
  have hdigit : (Decimal.isDigit m.char || (m.char == '.' && rest.head?.any Decimal.isDigit)) =
      false := by
    cases m
    case dot =>
      cases hr : rest.head? with
      | none => rfl
      | some c => simpa [Mark.char, Decimal.isDigit] using h c hr
    all_goals simp [Mark.char, Decimal.isDigit]
  have hquote : ¬(m.char = '"' ∨ m.char = '\'') := by cases m <;> decide
  rw [List.nil_append, scanPiece]
  simp only [hblank, hdash, hstart, hdigit, hquote, scanMark_char h]
  rfl

/-! ## Sequences of pieces -/

theorem Reads.mark {m : Mark} {cs rest : List Char} {ts : List Token} (hr : Reads cs ts rest)
    (hstands : m.Stands (cs ++ rest)) : Reads (m.char :: cs) (.mark m :: ts) rest :=
  (reads_mark hstands).before hr

theorem Reads.blank {c : Char} {cs rest : List Char} {ts : List Token} (hr : Reads cs ts rest)
    (hc : Text.Blank.isBlank c = true) : Reads (c :: cs) ts rest :=
  (reads_blank hc _).append hr

/-- A word and the blank after it. -/
theorem reads_wordBlank {s : String} {c : Char} {cs rest : List Char} {ts : List Token}
    (h : Text.Name.isWord s.toList = true)
    (hc : Text.Blank.isBlank c = true ∧ Text.Name.isPart c = false) (hr : Reads cs ts rest) :
    Reads (s.toList ++ c :: cs) (wordToken s :: ts) rest := by
  refine (reads_word h ?_).before (hr.blank hc.1)
  rintro d ⟨⟩
  exact hc.2

/-- A word and the mark after it. -/
theorem reads_wordMark {s : String} {m : Mark} {cs rest : List Char} {ts : List Token}
    (h : Text.Name.isWord s.toList = true) (hm : Text.Name.isPart m.char = false)
    (hstands : m.Stands (cs ++ rest)) (hr : Reads cs ts rest) :
    Reads (s.toList ++ m.char :: cs) (wordToken s :: .mark m :: ts) rest := by
  refine (reads_word h ?_).before (hr.mark hstands)
  rintro d ⟨⟩
  exact hm

/-- An equals sign between blanks. -/
theorem Reads.equals {cs rest : List Char} {ts : List Token} (hr : Reads cs ts rest) :
    Reads (' ' :: '=' :: ' ' :: cs) (.mark .equals :: ts) rest :=
  ((hr.blank (c := ' ') (by decide)).mark (m := .equals) trivial).blank (by decide)

/-- A word and an equals sign between blanks after it. -/
theorem reads_wordEquals {s : String} {cs rest : List Char} {ts : List Token}
    (h : Text.Name.isWord s.toList = true) (hr : Reads cs ts rest) :
    Reads (s.toList ++ ' ' :: '=' :: ' ' :: cs) (wordToken s :: .mark .equals :: ts) rest :=
  reads_wordBlank h (by decide) ((hr.blank (c := ' ') (by decide)).mark (m := .equals) trivial)

/-- A pair of braces. -/
theorem Reads.braces {cs rest : List Char} {ts : List Token} (hr : Reads cs ts rest) :
    Reads ('\x7b' :: '\x7d' :: cs) (.mark .openBrace :: .mark .closeBrace :: ts) rest :=
  (hr.mark (m := .closeBrace) trivial).mark (m := .openBrace) trivial

end LuaGraph.Chunk
