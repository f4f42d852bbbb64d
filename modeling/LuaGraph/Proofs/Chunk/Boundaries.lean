import LuaGraph.Atom
import LuaGraph.Proofs.Chunk.Quoting
import Mathlib.Logic.Function.Basic

/-!
# Where strings and comments end

A quoted string (`quote_string`) and a comment (`long_comment`) end where they were made to end,
whatever they hold: what follows them is cut into pieces as it would be without them, and if it
cannot be, the fault is the same.

A comment ends at the first closing bracket of its level, so its level has to be one whose closing
bracket does not begin inside the text, not even with the end of the text as its first half. The
levels are tried from zero on, and the search ends: a bracket of a level that is not below the
length of the text does not fit in.

Results: `lexFrom_piece` and `kinds_lexFrom` (one piece, and what positions have to do with it),
**`lexFrom_literal`** and **`lexFrom_comment`**.
-/

namespace LuaGraph.Chunk

open Text

/-! ## One piece after the other -/

/-- The position and the lexemes of a single piece do not depend on what follows it. -/
theorem lexFrom_piece {c : Char} {cs rest : List Char} {token? : Option Token}
    (h : scanPiece c (cs ++ rest) = .ok (token?, cs.length + 1)) (p : Position)
    (done : Array Lexeme) : lexFrom p done (c :: cs ++ rest) =
      lexFrom (p.after (c :: cs)) (token?.elim done fun t => done.push ⟨t, p⟩) rest := by
  have htake : (c :: (cs ++ rest)).take (cs.length + 1) = c :: cs := by simp
  have hdrop : (cs ++ rest).drop (cs.length + 1 - 1) = rest := by simp
  rw [List.cons_append, lexFrom, h]
  dsimp only
  rw [htake, hdrop]
  cases token? <;> rfl

/-- The lexemes found before are put in front of those that follow. -/
theorem lexFrom_append (p : Position) (before done : Array Lexeme) (cs : List Char) :
    lexFrom p (before ++ done) cs =
      (lexFrom p done cs).map fun x => { x with lexemes := before.toList ++ x.lexemes } := by
  fun_induction lexFrom p done cs with
  | case1 p done => rw [lexFrom, Array.toList_append]; rfl
  | case2 p done c cs n f hc => rw [lexFrom, hc]; rfl
  | case3 p done c cs token? n hc done' ih =>
    rw [← ih, lexFrom, hc]
    cases token? with
    | none => rfl
    | some token => simp only [done', Array.append_push]

/-! ## Tokens without their positions -/

/-- The tokens of a text, or what is wrong with it, without positions. -/
def kinds (result : Except (Position × GrammarFault) Lexemes) : Except GrammarFault (List Token) :=
  match result with
  | .ok x => .ok (x.lexemes.map Lexeme.token)
  | .error e => .error e.2

/-- **Which tokens a text is cut into does not depend on where it stands.** -/
theorem kinds_lexFrom (cs : List Char) (p q : Position) {done done' : Array Lexeme}
    (h : done.toList.map Lexeme.token = done'.toList.map Lexeme.token) :
    kinds (lexFrom p done cs) = kinds (lexFrom q done' cs) := by
  fun_induction lexFrom p done cs generalizing q done' with
  | case1 p done =>
    rw [lexFrom]
    exact congrArg Except.ok h
  | case2 p done c cs n f hc => rw [lexFrom, hc]; rfl
  | case3 p done c cs token? n hc found ih =>
    rw [lexFrom, hc]
    refine ih _ ?_
    cases token? with
    | none => exact h
    | some token => simp [found, h]

/-! ## Strings -/

/-- Characters without a newline stay on their line. -/
theorem Position.after_of_not_mem {cs : List Char} (h : '\n' ∉ cs) (p : Position) :
    p.after cs = ⟨p.line, p.column + cs.length⟩ := by
  induction cs generalizing p with
  | nil => rfl
  | cons c cs ih =>
    obtain ⟨hc, hcs⟩ := not_or.1 (mt List.mem_cons.2 h)
    show (p.next c).after cs = _
    rw [ih hcs, Position.next, if_neg (Ne.symm hc)]
    exact congrArg (Position.mk p.line) (Nat.add_right_comm p.column 1 cs.length)

theorem newline_not_mem_encodeChar (c : Char) : '\n' ∉ Quoted.encodeChar c := by
  unfold Quoted.encodeChar
  cases he : Quoted.escapeLetter? c with
  | some e =>
    have hletter : e ≠ '\n' := by
      unfold Quoted.escapeLetter? at he
      split at he <;> cases he <;> decide
    simp [Ne.symm hletter]
  | none =>
    dsimp only
    split
    · rename_i hc
      have hdigit : ∀ d < 10, '\n' ≠ Quoted.digit d := by decide
      have hlt : c.toNat < 128 := by
        simp only [Quoted.isControl, Bool.or_eq_true, decide_eq_true_eq, beq_iff_eq] at hc
        omega
      have h₁ := hdigit (c.toNat / 100) (by omega)
      have h₂ := hdigit (c.toNat / 10 % 10) (by omega)
      have h₃ := hdigit (c.toNat % 10) (by omega)
      simp [Quoted.threeDigits, h₁, h₂, h₃]
    · exact fun h => (plain_of_escapeLetter? he).1 (List.mem_singleton.1 h).symm

theorem newline_not_mem_literal (s : String) : '\n' ∉ (Quoted.literal s).toList := by
  rw [Quoted.literal, String.toList_ofList]
  intro h
  rcases List.mem_cons.1 h with h | h
  · exact absurd h (by decide)
  rcases List.mem_append.1 h with h | h
  · obtain ⟨c, -, hc⟩ := List.mem_flatMap.1 h
    exact newline_not_mem_encodeChar c hc
  · exact absurd h (by decide)

/-- What starts with a quoted string tells the string and what follows it. -/
theorem literal_append_inj {s t : String} {rest rest' : List Char}
    (h : (Quoted.literal s).toList ++ rest = (Quoted.literal t).toList ++ rest') :
    s = t ∧ rest = rest' := by
  have hscan := scanPiece_literal s rest
  have hscan' := scanPiece_literal t rest'
  have htail : Quoted.encode s.toList ++ ['"'] ++ rest =
      Quoted.encode t.toList ++ ['"'] ++ rest' := by
    rw [toList_literal, toList_literal] at h
    exact List.tail_eq_of_cons_eq h
  rw [htail, hscan'] at hscan
  have : Token.string t = .string s := Option.some.inj (congrArg Prod.fst (Except.ok.inj hscan))
  obtain rfl := Token.string.inj this
  exact ⟨rfl, List.append_cancel_left htail⟩

/-- **A quoted string is undone by the lexer**, whatever stands before it and after it: the string
comes first, no line is left behind, and what follows is cut into pieces from its first character
on. So no content ends the literal early, and two strings never have the same literal. -/
theorem lexFrom_literal (s : String) (p : Position) (done : Array Lexeme) (rest : List Char) :
    lexFrom p done ((Quoted.literal s).toList ++ rest) =
      (lexFrom ⟨p.line, p.column + (Quoted.literal s).length⟩ #[] rest).map
        (fun x => { x with lexemes := done.toList ++ ⟨.string s, p⟩ :: x.lexemes }) ∧
    (∀ t rest', (Quoted.literal s).toList ++ rest = (Quoted.literal t).toList ++ rest' →
      s = t ∧ rest = rest') ∧
    Function.Injective Quoted.literal := by
  refine ⟨?_, fun t rest' => literal_append_inj, fun t u h => ?_⟩
  · have hpiece := lexFrom_piece (scanPiece_literal s rest) p done
    have hafter := Position.after_of_not_mem (newline_not_mem_literal s) p
    have happend := lexFrom_append (p.after (Quoted.literal s).toList) (done.push ⟨.string s, p⟩)
      #[] rest
    rw [← toList_literal] at hpiece
    rw [Array.append_empty, Array.toList_push] at happend
    rw [String.length_toList] at hafter
    rw [hpiece, Option.elim, happend, hafter]
    simp only [List.append_assoc, List.singleton_append]
  · have happend : (Quoted.literal t).toList ++ [] = (Quoted.literal u).toList ++ [] := by rw [h]
    exact (literal_append_inj happend).1

/-! ## Comments -/

open LongBracket

theorem lexFrom_append_comment (shown : String) (p : Position) (done : Array Lexeme)
    (rest : List Char) : lexFrom p done ((comment shown).toList ++ rest) =
      lexFrom (p.after (comment shown).toList) done rest := by
  have hpiece := lexFrom_piece (scanPiece_comment shown.toList rest) p done
  rwa [← String.toList_ofList (l := '-' :: '-' :: enclose shown.toList)] at hpiece

/-- Nil and the comment after it are read as nil. -/
theorem lexFrom_append_remark (shown : String) (p : Position) (done : Array Lexeme)
    (rest : List Char) : lexFrom p done ((Atom.remark shown).text.toList ++ rest) =
      lexFrom (p.after (Atom.remark shown).text.toList) (done.push ⟨.keyword "nil", p⟩) rest := by
  have hnil (cs : List Char) : scanPiece 'n' (['i', 'l'] ++ ' ' :: cs) =
      .ok (some (.keyword "nil"), ['i', 'l'].length + 1) := rfl
  have hspace (cs : List Char) : scanPiece ' ' ([] ++ cs) =
      .ok (none, ([] : List Char).length + 1) := rfl
  have htext : (Atom.remark shown).text.toList =
      ['n', 'i', 'l'] ++ ([' '] ++ (comment shown).toList) := String.toList_append
  rw [htext, Position.after_append, Position.after_append, List.append_assoc, List.append_assoc]
  calc
    lexFrom p done (['n', 'i', 'l'] ++ ([' '] ++ ((comment shown).toList ++ rest)))
    _ = lexFrom (p.after ['n', 'i', 'l']) (done.push ⟨.keyword "nil", p⟩)
          ([' '] ++ ((comment shown).toList ++ rest)) := lexFrom_piece (hnil _) p done
    _ = lexFrom ((p.after ['n', 'i', 'l']).after [' ']) (done.push ⟨.keyword "nil", p⟩)
          ((comment shown).toList ++ rest) := lexFrom_piece (hspace _) _ _
    _ = lexFrom (((p.after ['n', 'i', 'l']).after [' ']).after (comment shown).toList)
          (done.push ⟨.keyword "nil", p⟩) rest := lexFrom_append_comment ..

/-- **What a comment holds stays in it.** The search for a level ends at the least one whose closing
bracket is met where the text ends and not before. Then the comment ends there, too: what follows it
has the same tokens as alone, or the same fault. So a value that cannot be written is read as nil,
whatever its label is. -/
theorem lexFrom_comment (shown : String) :
    (∃ level ≤ shown.length, isFree shown.toList level = true ∧
      (∀ lower < level, isFree shown.toList lower = false) ∧
      (comment shown).toList =
        '-' :: '-' :: (opening level ++ shown.toList ++ closing level)) ∧
    (∀ (p : Position) (done : Array Lexeme) (rest : List Char),
      lexFrom p done ((comment shown).toList ++ rest) =
        lexFrom (p.after (comment shown).toList) done rest) ∧
    (∀ rest : String, kinds (lex (comment shown ++ rest)) = kinds (lex rest)) ∧
    ∀ (p : Position) (done : Array Lexeme) (rest : List Char),
      lexFrom p done ((Atom.remark shown).text.toList ++ rest) =
        lexFrom (p.after (Atom.remark shown).text.toList) (done.push ⟨.keyword "nil", p⟩) rest := by
  obtain ⟨hfree, hmem, hleast⟩ := List.find?_range_eq_some.1 (find?_freeLevel shown.toList)
  refine ⟨⟨freeLevel shown.toList, ?_, ?_, ?_, ?_⟩, lexFrom_append_comment shown, fun rest => ?_,
    lexFrom_append_remark shown⟩
  · rw [← String.length_toList]
    exact Nat.le_of_lt_succ (List.mem_range.1 hmem)
  · exact hfree
  · exact fun lower h => by simpa using hleast lower h
  · rw [comment, String.toList_ofList, enclose]
  · rw [lex, String.toList_append, lexFrom_append_comment]
    exact kinds_lexFrom _ _ _ rfl

end LuaGraph.Chunk
