import LuaGraph.Proofs.Chunk.Costs
import Mathlib.Data.List.Infix

/-!
# Positions

Positions are counted on while a text is read (`next_char`). What they come to depends on the text
only: the line of a place is one more than the number of newlines before it, and its column is one
more than the number of characters since the last of these (`Position.behind`).

* A text is cut into pieces that take a character each at least (`Cuts`). The lexemes are the pieces
  that are tokens, each at the position of its first character (`lexemesOf`).
* Where a text is rejected, by the lexer or by a rule of the grammar, is the place of one of its
  characters or its end (`Marks`).

Out of scope: faults of a chunk that is run. They have no position.

Headline: **`positions_exact`**.
-/

namespace LuaGraph.Chunk

/-! ## Lines and columns -/

namespace Position

/-- **The position behind some characters**, told from the newlines among them. -/
def behind (cs : List Char) : Position where
  line := 1 + cs.count '\n'
  column := 1 + (cs.reverse.takeWhile (· != '\n')).length

/-- The first position comes before the second one in a text. -/
def Before (p q : Position) : Prop := p.line < q.line ∨ p.line = q.line ∧ p.column < q.column

instance (p q : Position) : Decidable (p.Before q) := inferInstanceAs (Decidable (_ ∨ _))

variable {p q r : Position}

theorem Before.trans (h : p.Before q) (h' : q.Before r) : p.Before r := by
  unfold Before at *
  omega

theorem before_next (p : Position) (c : Char) : p.Before (p.next c) := by
  unfold Before next
  split <;> simp

theorem behind_concat (cs : List Char) (c : Char) : behind (cs ++ [c]) = (behind cs).next c := by
  unfold behind next
  by_cases hc : c = '\n'
  · simp [hc, Nat.add_assoc]
  · simp [hc, Nat.add_comm]

/-- **Counting on gives the position that is told from the whole text before.** -/
theorem after_behind (before cs : List Char) :
    (behind before).after cs = behind (before ++ cs) := by
  induction cs generalizing before with
  | nil => simp
  | cons c cs ih =>
    show ((behind before).next c).after cs = _
    rw [← behind_concat, ih, List.append_assoc, List.singleton_append]

/-- Positions grow along a text. -/
theorem before_behind {cs : List Char} (h : cs ≠ []) (before : List Char) :
    (behind before).Before (behind (before ++ cs)) := by
  induction cs generalizing before with
  | nil => exact absurd rfl h
  | cons c cs ih =>
    have hnext : (behind before).Before (behind (before ++ [c])) := by
      rw [behind_concat]
      exact before_next _ c
    cases cs with
    | nil => exact hnext
    | cons d ds =>
      have hrest := ih (List.cons_ne_nil d ds) (before ++ [c])
      rw [List.append_assoc, List.singleton_append] at hrest
      exact hnext.trans hrest

/-- The position is that of a character of the text or of its end. -/
def Marks (text : List Char) (p : Position) : Prop :=
  ∃ before after, text = before ++ after ∧ p = behind before

end Position

/-! ## Every piece takes a character -/

section

variable {c : Char} {cs : List Char} {n : Nat}

/-- What is made of the result of a scan takes as many characters. -/
theorem exists_of_map {α β : Type} {s : Scan α} {f : α → β} {b : β}
    (h : s.map (fun p => (f p.1, p.2)) = .ok (b, n)) : ∃ a, s = .ok (a, n) := by
  cases s with
  | error e => cases h
  | ok p =>
    cases h
    exact ⟨p.1, rfl⟩

theorem pos_of_shift {α : Type} {s : Scan α} {a : α} (h : s.shift = .ok (a, n)) : 0 < n := by
  cases s with
  | error e => cases h
  | ok p =>
    cases h
    exact Nat.succ_pos _

theorem pos_of_scanLong {level : Nat} {s : String} (h : scanLong level cs = .ok (s, n)) :
    0 < n := by
  unfold scanLong at h
  dsimp only at h
  split at h
  · cases h
    omega
  · cases h

theorem pos_of_scanNumber {t : Token} (hc : Decimal.isDigit c = true ∨ c = '.')
    (h : scanNumber (c :: cs) = .ok (t, n)) : 0 < n := by
  have hhex {ds : List Char} (h : scanHex ds = .ok (t, n)) : 0 < n := by
    unfold scanHex at h
    dsimp only at h
    split at h <;> cases h
    omega
  have hlength : 0 < numeralLength false (c :: cs) := by
    have hfirst : (Decimal.isDigit c || c == '.') = true := by simpa using hc
    rw [numeralLength, if_pos hfirst]
    exact Nat.succ_pos _
  unfold scanNumber at h
  split at h
  · exact hhex h
  · exact hhex h
  · unfold scanDecimal at h
    dsimp only at h
    split at h
    · cases h
    split at h
    · cases h
      exact hlength
    · split at h <;> cases h
      exact hlength

/-- A string goes on for as long as it is read. -/
theorem lt_of_stringFrom {quote : Char} {k : Nat} {bytes result : ByteArray}
    (h : stringFrom quote k bytes cs = .ok (result, n)) : k < n := by
  fun_induction stringFrom quote k bytes cs <;> grind

theorem pos_of_scanString {t : Token} (h : scanString c cs = .ok (t, n)) : 0 < n := by
  unfold scanString at h
  split at h
  · cases h
  · rename_i hstring
    have := lt_of_stringFrom hstring
    split at h <;> cases h
    omega

theorem pos_of_scanMark {t : Token} (h : scanMark c cs = .ok (t, n)) : 0 < n := by
  unfold scanMark at h
  split at h
  · obtain ⟨s, hs⟩ := exists_of_map h
    exact pos_of_scanLong hs
  · split at h <;> cases h
    exact Nat.one_pos

/-- **A piece takes its first character.** -/
theorem pos_of_scanPiece {token? : Option Token} (h : scanPiece c cs = .ok (token?, n)) :
    0 < n := by
  unfold scanPiece at h
  dsimp only at h
  split at h
  · cases h
    exact Nat.one_pos
  split at h
  · obtain ⟨u, hu⟩ := exists_of_map (f := fun _ => none) h
    exact pos_of_shift hu
  split at h
  · rename_i hstart
    obtain ⟨t, ht⟩ := exists_of_map h
    unfold scanWord at ht
    have hpart : Text.Name.isPart c = true := by simp [Text.Name.isPart, hstart]
    simp only [List.takeWhile_cons_of_pos hpart] at ht
    cases ht
    exact Nat.succ_pos _
  split at h
  · rename_i hnumber
    obtain ⟨t, ht⟩ := exists_of_map h
    refine pos_of_scanNumber ?_ ht
    simp only [Bool.or_eq_true, Bool.and_eq_true, beq_iff_eq] at hnumber
    exact hnumber.imp_right And.left
  split at h
  · obtain ⟨t, ht⟩ := exists_of_map h
    exact pos_of_scanString ht
  · obtain ⟨t, ht⟩ := exists_of_map h
    exact pos_of_scanMark ht

end

/-! ## Pieces and their places -/

/-- Some characters of a text that are read together, and the token that they are. -/
structure Piece where
  chars : List Char
  token? : Option Token

/-- The text is cut into these pieces, as they are read one after the other. -/
inductive Cuts : List Char → List Piece → Prop
  | nil : Cuts [] []
  | piece {c : Char} {cs : List Char} {token? : Option Token} {n : Nat} {ps : List Piece} :
      scanPiece c cs = .ok (token?, n) → Cuts ((c :: cs).drop n) ps →
        Cuts (c :: cs) (⟨(c :: cs).take n, token?⟩ :: ps)

/-- The pieces that are tokens, each at the position of its first character. -/
def lexemesOf (before : List Char) : List Piece → List Lexeme
  | [] => []
  | p :: ps =>
    (p.token?.map fun t => ⟨t, .behind before⟩).toList ++ lexemesOf (before ++ p.chars) ps

open Position

variable {before cs text : List Char} {ps : List Piece} {done : Array Lexeme} {x : Lexemes}

/-- Nothing is lost between the pieces. -/
theorem Cuts.flatMap_chars (h : Cuts cs ps) : ps.flatMap Piece.chars = cs := by
  induction h with
  | nil => rfl
  | piece _ _ ih => rw [List.flatMap_cons, ih, List.take_append_drop]

theorem drop_of_scanPiece {c : Char} {token? : Option Token} {n : Nat}
    (h : scanPiece c cs = .ok (token?, n)) : cs.drop (n - 1) = (c :: cs).drop n := by
  obtain ⟨k, rfl⟩ := Nat.exists_eq_succ_of_ne_zero (Nat.ne_of_gt (pos_of_scanPiece h))
  rfl

/-- **What is read as a text is cut into pieces**, and the lexemes are those of the pieces. -/
theorem exists_cuts (h : lexFrom (.behind before) done cs = .ok x) :
    ∃ ps, Cuts cs ps ∧ x.lexemes = done.toList ++ lexemesOf before ps ∧
      x.stop = .behind (before ++ cs) := by
  generalize hp : behind before = p at h
  fun_induction lexFrom p done cs generalizing before with
  | case1 p done =>
    cases h
    exact ⟨[], .nil, by simp [lexemesOf], by rw [List.append_nil, hp]⟩
  | case2 => cases h
  | case3 p done c cs token? n hc done' =>
    rename_i ih
    have hafter : behind (before ++ (c :: cs).take n) = p.after ((c :: cs).take n) := by
      rw [← hp, after_behind]
    obtain ⟨ps, hcuts, hlexemes, hstop⟩ := ih hafter h
    rw [drop_of_scanPiece hc] at hcuts hstop
    refine ⟨_, .piece hc hcuts, ?_, ?_⟩
    · rw [hlexemes, lexemesOf, hp]
      cases token? with
      | none => rfl
      | some token => simp [done']
    · rw [hstop, List.append_assoc, List.take_append_drop]

/-- Where the lexer gives up is a place in the text. -/
theorem marks_of_lexFrom_eq_error {e : Position × GrammarFault}
    (h : lexFrom (.behind before) done cs = .error e) : Marks (before ++ cs) e.1 := by
  generalize hp : behind before = p at h
  fun_induction lexFrom p done cs generalizing before with
  | case1 => cases h
  | case2 p done c cs n f hc =>
    cases h
    refine ⟨before ++ (c :: cs).take n, (c :: cs).drop n, ?_, ?_⟩
    · rw [List.append_assoc, List.take_append_drop]
    · rw [← hp, after_behind]
  | case3 p done c cs token? n hc done' =>
    rename_i ih
    have hafter : behind (before ++ (c :: cs).take n) = p.after ((c :: cs).take n) := by
      rw [← hp, after_behind]
    have hmarks := ih hafter h
    rwa [drop_of_scanPiece hc, List.append_assoc, List.take_append_drop] at hmarks

/-- The lexemes of pieces are at places in the text, none before the first piece. -/
theorem Cuts.marks (h : Cuts cs ps) (before : List Char) :
    ∀ l ∈ lexemesOf before ps, Marks (before ++ cs) l.position := by
  induction h generalizing before with
  | nil => exact fun l hl => absurd hl List.not_mem_nil
  | @piece c cs token? n ps hc hcuts ih =>
    intro l hl
    rcases List.mem_append.1 hl with hl | hl
    · cases token? with
      | none => cases hl
      | some token =>
        obtain rfl := List.mem_singleton.1 hl
        exact ⟨before, c :: cs, rfl, rfl⟩
    · have hmarks := ih _ l hl
      rwa [List.append_assoc, List.take_append_drop] at hmarks

/-- **Lexemes come in the order of their positions**, and the end of the text after them. -/
theorem Cuts.ascending (h : Cuts cs ps) (before : List Char) :
    ((lexemesOf before ps).map Lexeme.position ++ [behind (before ++ cs)]).Pairwise Before ∧
      ∀ q ∈ (lexemesOf before ps).map Lexeme.position ++ [behind (before ++ cs)],
        q = behind before ∨ (behind before).Before q := by
  induction h generalizing before with
  | nil => simp [lexemesOf]
  | @piece c cs token? n ps hc hcuts ih =>
    have htake : (c :: cs).take n ≠ [] := by
      obtain ⟨k, rfl⟩ := Nat.exists_eq_succ_of_ne_zero (Nat.ne_of_gt (pos_of_scanPiece hc))
      exact List.cons_ne_nil _ _
    have hnext := before_behind htake before
    obtain ⟨hpairwise, hlater⟩ := ih (before ++ (c :: cs).take n)
    rw [List.append_assoc, List.take_append_drop] at hpairwise hlater
    -- everything after the piece is after its first character
    have hafter : ∀ q ∈ (lexemesOf (before ++ (c :: cs).take n) ps).map Lexeme.position ++
        [behind (before ++ c :: cs)], (behind before).Before q := by
      intro q hq
      rcases hlater q hq with rfl | hq
      · exact hnext
      · exact hnext.trans hq
    cases token? with
    | none => exact ⟨hpairwise, fun q hq => .inr (hafter q hq)⟩
    | some token =>
      refine ⟨List.pairwise_cons.2 ⟨hafter, hpairwise⟩, fun q hq => ?_⟩
      exact (List.mem_cons.1 hq).imp_right (hafter q)

/-! ## Texts -/

theorem lex_eq (text : String) : lex text = lexFrom (.behind []) #[] text.toList := rfl

/-- **Where a text is rejected is a place in it**: for the lexer one that it has come to, for the
rules of the grammar a token or the end. -/
theorem marks_of_parse_eq_error {limits : Limits} {text : String} {e : Position × GrammarFault}
    (h : parse limits text = .error e) : Marks text.toList e.1 := by
  rcases parse_eq_error_iff.1 h with hlex | ⟨x, hlex, hrun⟩
  · rw [lex_eq] at hlex
    exact marks_of_lexFrom_eq_error hlex
  · rw [lex_eq] at hlex
    obtain ⟨ps, hcuts, hlexemes, hstop⟩ := exists_cuts hlex
    have hchunk : Parse.Advances (Parse.chunk limits) :=
      Parse.Law.chunk (Parse.deeper_advancing limits.maxConstants limits.maxDepth)
    rcases List.mem_append.1 (hchunk.place _ e hrun) with hplace | hplace
    · obtain ⟨l, hl, hposition⟩ := List.mem_map.1 hplace
      dsimp only at hl
      rw [hlexemes] at hl
      exact hposition ▸ hcuts.marks [] l hl
    · exact ⟨text.toList, [], by simp, (List.mem_singleton.1 hplace).trans hstop⟩

/-- What is loaded fails where parsing does, or while it runs. -/
theorem parse_of_load_eq_error {limits : Limits} {text : String} {H : Heap} {line column : Nat}
    {f : GrammarFault} (h : load limits text H = .error (.grammar line column f)) :
    parse limits text = .error (⟨line, column⟩, f) := by
  unfold load at h
  cases hparse : parse limits text with
  | error e =>
    obtain ⟨⟨l, c⟩, f'⟩ := e
    rw [hparse] at h
    cases h
    rfl
  | ok body =>
    rw [hparse] at h
    unfold run at h
    dsimp only at h
    split at h <;> cases h

/-- **Positions are exact.** A text that is cut into tokens is cut into pieces without a gap, and
each token is at the line and column that its first character has in the text; these ascend from
token to token up to the end of the text, whose position is told from the whole text. A text that is
rejected is rejected at the line and column of one of its characters or of its end. -/
theorem positions_exact (text : String) :
    (∀ x, lex text = .ok x →
      (∃ ps, Cuts text.toList ps ∧ ps.flatMap Piece.chars = text.toList ∧
        x.lexemes = lexemesOf [] ps) ∧
      x.stop = behind text.toList ∧
      (x.lexemes.map Lexeme.position ++ [x.stop]).Pairwise Before) ∧
    (∀ limits e, check limits text = .error e → ∃ line column f, e = .grammar line column f) ∧
    ∀ limits line column f,
      check limits text = .error (.grammar line column f) ∨
        (∃ H, load limits text H = .error (.grammar line column f)) →
      Marks text.toList ⟨line, column⟩ := by
  refine ⟨fun x hlex => ?_, fun limits e h => ?_, fun limits line column f h => ?_⟩
  · rw [lex_eq] at hlex
    obtain ⟨ps, hcuts, hlexemes, hstop⟩ := exists_cuts hlex
    refine ⟨⟨ps, hcuts, hcuts.flatMap_chars, hlexemes⟩, hstop, ?_⟩
    rw [hlexemes, hstop]
    exact (hcuts.ascending []).1
  · obtain ⟨e', -, rfl⟩ := check_eq_error_iff.1 h
    exact ⟨_, _, _, rfl⟩
  · rcases h with h | ⟨H, h⟩
    · obtain ⟨⟨⟨l, c⟩, f'⟩, hparse, hlocated⟩ := check_eq_error_iff.1 h
      cases hlocated
      exact marks_of_parse_eq_error hparse
    · exact marks_of_parse_eq_error (parse_of_load_eq_error h)

/-- A string and a comment over several lines, a letter of two bytes, and a token that no statement
starts with. -/
theorem positions_exact_broken :
    let text := "s = [[\n1]] --[[\n]]\n  \"é\" )"
    (∃ x, lex text = .ok x ∧
      x.lexemes.map Lexeme.position ++ [x.stop] =
        [⟨1, 1⟩, ⟨1, 3⟩, ⟨1, 5⟩, ⟨4, 3⟩, ⟨4, 7⟩, ⟨4, 8⟩] ∧
      x.stop = behind text.toList ∧
      (x.lexemes.map Lexeme.position ++ [x.stop]).Pairwise Before) ∧
    check ⟨9, 9⟩ text = .error (.grammar 4 3 (.unexpected "é")) ∧ Marks text.toList ⟨4, 3⟩ := by
  intro text
  obtain ⟨hplaced, -, hrejected⟩ := positions_exact text
  have hpositions : ((lex text).toOption.map fun x =>
      x.lexemes.map Lexeme.position ++ [x.stop]) =
        some [⟨1, 1⟩, ⟨1, 3⟩, ⟨1, 5⟩, ⟨4, 3⟩, ⟨4, 7⟩, ⟨4, 8⟩] := by decide +kernel
  have hcheck : check ⟨9, 9⟩ text = .error (.grammar 4 3 (.unexpected "é")) := by decide +kernel
  refine ⟨?_, hcheck, hrejected _ _ _ _ (.inl hcheck)⟩
  cases hlex : lex text with
  | error e =>
    rw [hlex] at hpositions
    cases hpositions
  | ok x =>
    obtain ⟨-, hstop, hascending⟩ := hplaced x hlex
    rw [hlex] at hpositions
    exact ⟨x, rfl, Option.some.inj hpositions, hstop, hascending⟩

end LuaGraph.Chunk
