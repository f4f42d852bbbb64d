import LuaGraph.Document
import LuaGraph.Proofs.Chunk.Numerals
import LuaGraph.Proofs.Chunk.Quoting

/-!
# The tokens of documents

The tokens of a term (`write_value`), of a statement and of a document (`render`) are defined by
recursion on what is written, not on the text. A layout matters in one point only: whether a comma
stands after the last field of a table.

A term is *writable* with `n` slots if no table in it is too deep and its slots are among the first
`n`.

Result: the text of a document is cut into its tokens (`spells_text`).
-/

namespace LuaGraph

open Chunk

/-! ## Tokens of terms -/

/-- The tokens of an atom. -/
def Atom.tokens : Atom → List Token
  | nil => [.keyword "nil"]
  | boolean b => [.keyword (if b then "true" else "false")]
  | number n => numberTokens n
  | string s => [.string s]
  | remark _ => [.keyword "nil"]

/-- A comma stands after the last field of a table. -/
def Layout.trailing : Layout → Bool
  | compact => false
  | pretty _ => true

namespace Term

/-- The tokens of a slot. -/
def slotTokens (i : Nat) : List Token :=
  [.name slotTable, .mark .openBracket, naturalToken i, .mark .closeBracket]

mutual

/-- The tokens of a term. -/
def tokens (trailing : Bool) : Term → List Token
  | atom a => a.tokens
  | slot i => slotTokens i
  | tooDeep => []
  | table fs => .mark .openBrace :: fieldsTokens trailing fs ++ [.mark .closeBrace]

/-- The tokens of the fields of a table. -/
def fieldsTokens (trailing : Bool) : List Field → List Token
  | [] => []
  | f :: fs => fieldTokens trailing f ++ laterTokens trailing fs

/-- The tokens after a field. -/
def laterTokens (trailing : Bool) : List Field → List Token
  | [] => if trailing then [.mark .comma] else []
  | f :: fs => .mark .comma :: (fieldTokens trailing f ++ laterTokens trailing fs)

/-- The tokens of a field. -/
def fieldTokens (trailing : Bool) : Field → List Token
  | .item v => tokens trailing v
  | .pair k v =>
    (match bareName? k with
      | some name => [.name name]
      | none => .mark .openBracket :: tokens trailing k ++ [.mark .closeBracket]) ++
      .mark .equals :: tokens trailing v

end

mutual

/-- No table is too deep, and all slots are among the first `n`. -/
def Writable (n : Nat) : Term → Prop
  | atom _ => True
  | slot i => 1 ≤ i ∧ i ≤ n
  | tooDeep => False
  | table fs => FieldsWritable n fs

/-- All fields are writable. -/
def FieldsWritable (n : Nat) : List Field → Prop
  | [] => True
  | f :: fs => FieldWritable n f ∧ FieldsWritable n fs

/-- The terms of the field are writable. -/
def FieldWritable (n : Nat) : Field → Prop
  | .item v => Writable n v
  | .pair k v => Writable n k ∧ Writable n v

end

end Term

/-! ## Tokens of documents -/

/-- The tokens of a key after the table that it is a key of. -/
def Term.suffixTokens (trailing : Bool) (key : Term) : List Token :=
  match key.bareName? with
  | some name => [.mark .dot, .name name]
  | none => .mark .openBracket :: key.tokens trailing ++ [.mark .closeBracket]

/-- The tokens of a fill statement. -/
def Fill.tokens (trailing : Bool) (f : Fill) : List Token :=
  Term.slotTokens f.slot ++ f.key.suffixTokens trailing ++
    .mark .equals :: f.value.tokens trailing

/-- The statement is writable. -/
structure Fill.Writable (n : Nat) (f : Fill) : Prop where
  slot : 1 ≤ f.slot ∧ f.slot ≤ n
  key : f.key.Writable n
  value : f.value.Writable n

/-- The tokens of a binding. -/
def Binding.tokens (trailing : Bool) (slots : Nat) (b : Binding) : List Token :=
  (match b.globalName? slots with
    | some name => [.name name]
    | none => .name "_ENV" :: .mark .openBracket :: b.key.tokens trailing ++
        [.mark .closeBracket]) ++
    .mark .equals :: b.value.tokens trailing

/-- The binding is writable. -/
structure Binding.Writable (n : Nat) (b : Binding) : Prop where
  key : b.key.Writable n
  value : b.value.Writable n

namespace Document

/-- The tokens of the statements that make the tables in the slots. -/
def preambleTokens (slots : Nat) : List Token :=
  [.keyword "local", .name Term.slotTable, .mark .equals, .mark .openBrace, .mark .closeBrace,
    .keyword "for", .name "i", .mark .equals, naturalToken 1, .mark .comma, naturalToken slots,
    .keyword "do", .name Term.slotTable, .mark .openBracket, .name "i", .mark .closeBracket,
    .mark .equals, .mark .openBrace, .mark .closeBrace, .keyword "end"]

/-- The tokens of a group of fill statements. -/
def blockTokens (trailing split : Bool) (block : List Fill) : List Token :=
  let body := block.flatMap (·.tokens trailing)
  if split then
    [.mark .openParen, .keyword "function", .mark .openParen, .mark .closeParen] ++ body ++
      [.keyword "end", .mark .closeParen, .mark .openParen, .mark .closeParen, .mark .semicolon]
  else body

/-- The tokens of a document. -/
def tokens (trailing : Bool) (d : Document) : List Token :=
  (if d.slots = 0 then [] else preambleTokens d.slots) ++
    d.blocks.flatMap (blockTokens trailing d.split) ++
    d.bindings.flatMap (·.tokens trailing d.slots)

/-- Every statement is writable with the slots that there are, and their number is one that a chunk
can hold. -/
structure Writable (d : Document) : Prop where
  slots : d.slots < 2 ^ 63
  fills : ∀ block ∈ d.blocks, ∀ f ∈ block, f.Writable d.slots
  bindings : ∀ b ∈ d.bindings, b.Writable d.slots

end Document

/-! ## Words and separators -/

theorem isPart_of_ends {rest : List Char} (h : Ends rest) :
    ∀ c ∈ rest.head?, Text.Name.isPart c = false := fun c hc => (h c hc).1

theorem reads_name {s : String} (h : Text.Name.isName s = true) {rest : List Char}
    (hr : ∀ c ∈ rest.head?, Text.Name.isPart c = false) : Reads s.toList [.name s] rest := by
  simp only [Text.Name.isName, Bool.and_eq_true, Bool.not_eq_true'] at h
  have := reads_word h.1 hr
  rwa [wordToken, h.2] at this

theorem reads_keyword {s : String} (h : Text.Name.isWord s.toList = true)
    (hk : Text.Name.isKeyword s = true) {rest : List Char}
    (hr : ∀ c ∈ rest.head?, Text.Name.isPart c = false) : Reads s.toList [.keyword s] rest := by
  have := reads_word h hr
  rwa [wordToken, if_pos hk] at this

theorem reads_equals (rest : List Char) : Reads " = ".toList [.mark .equals] rest := by
  rw [show " = ".toList = [' ', '=', ' '] from rfl]
  exact (reads_nil rest).equals

/-- A text after an equals sign. -/
theorem reads_assigned {s : String} {ts : List Token} {rest : List Char}
    (h : Reads s.toList ts rest) : Reads (" = " ++ s).toList (.mark .equals :: ts) rest := by
  rw [String.toList_append]
  exact (reads_equals _).append h

theorem isPart_equals (s : String) (rest : List Char) :
    ∀ c ∈ ((" = " ++ s).toList ++ rest).head?, Text.Name.isPart c = false := by
  rw [String.toList_append, show " = ".toList = [' ', '=', ' '] from rfl]
  intro c hc
  cases hc
  decide

theorem reads_newline (indent level : Nat) (rest : List Char) :
    Reads (Layout.newline indent level).toList [] rest := by
  refine reads_blanks ?_ rest
  intro c hc
  rw [Layout.newline, String.toList_append] at hc
  rcases List.mem_append.1 hc with hc | hc
  · obtain rfl : c = '\n' := by simpa using hc
    decide
  · rw [String.toList_ofList] at hc
    obtain rfl := List.eq_of_mem_replicate hc
    decide

theorem reads_opening (layout : Layout) (level : Nat) (rest : List Char) :
    Reads (layout.opening level).toList [] rest := by
  cases layout with
  | compact =>
    rw [Layout.opening, String.toList_empty]
    exact reads_nil rest
  | pretty indent => exact reads_newline indent _ rest

theorem reads_between (layout : Layout) (level : Nat) (rest : List Char) :
    Reads (layout.between level).toList [.mark .comma] rest := by
  cases layout with
  | compact =>
    rw [Layout.between, show ", ".toList = [',', ' '] from rfl]
    exact Reads.cons (reads_mark (m := .comma) trivial) (reads_blank (by decide) rest)
  | pretty indent =>
    rw [Layout.between, String.toList_append, show ",".toList = [','] from rfl]
    exact (reads_mark (m := .comma) trivial).append (reads_newline indent _ rest)

theorem reads_closing (layout : Layout) (level : Nat) (rest : List Char) :
    Reads (layout.closing level).toList (if layout.trailing then [.mark .comma] else []) rest := by
  cases layout with
  | compact =>
    rw [Layout.closing, String.toList_empty]
    exact reads_nil rest
  | pretty indent =>
    rw [Layout.closing, String.toList_append, show ",".toList = [','] from rfl]
    exact (reads_mark (m := .comma) trivial).append (reads_newline indent _ rest)

theorem ends_between (layout : Layout) (level : Nat) (rest : List Char) :
    Ends ((layout.between level).toList ++ rest) := by
  cases layout with
  | compact =>
    rw [Layout.between, show ", ".toList = [',', ' '] from rfl]
    exact ends_cons (by decide)
  | pretty indent =>
    rw [Layout.between, String.toList_append, show ",".toList = [','] from rfl]
    exact ends_cons (by decide)

theorem ends_closing (layout : Layout) (level : Nat) (rest : List Char) :
    Ends ((layout.closing level).toList ++ '\x7d' :: rest) := by
  cases layout with
  | compact =>
    rw [Layout.closing, String.toList_empty]
    exact ends_cons (by decide)
  | pretty indent =>
    rw [Layout.closing, String.toList_append, show ",".toList = [','] from rfl]
    exact ends_cons (by decide)

/-! ## Atoms and slots -/

theorem reads_atom (a : Atom) {rest : List Char} (hr : Ends rest) :
    Reads a.text.toList a.tokens rest := by
  cases a with
  | nil => exact reads_keyword (by decide) (by decide) (isPart_of_ends hr)
  | boolean b =>
    cases b <;> exact reads_keyword (by decide) (by decide) (isPart_of_ends hr)
  | number n => exact reads_numeral n hr
  | string s => exact reads_literal s rest
  | remark shown =>
    rw [Atom.text, String.toList_append, show "nil ".toList = "nil".toList ++ [' '] from rfl,
      List.append_assoc]
    refine (reads_keyword (by decide) (by decide) ?_).before ?_
    · intro c hc
      cases hc
      decide
    · exact (reads_comment shown rest).blank (by decide)

/-- A slot is read to its closing bracket, whatever follows. -/
theorem reads_slot {i : Nat} (h : i < 2 ^ 63) (rest : List Char) :
    Reads (Term.slotText i).toList (Term.slotTokens i) rest := by
  have hend : Reads "]".toList [.mark .closeBracket] rest := reads_mark (m := .closeBracket) trivial
  have hends : Ends ("]".toList ++ rest) := ends_cons (c := ']') (by decide)
  have hdigits := reads_digits h hends
  have hstands : Mark.openBracket.Stands (Decimal.digitsOf i ++ "]".toList ++ rest) := by
    intro c hc
    cases hd : Decimal.digitsOf i with
    | nil => exact absurd hd (Decimal.digitsOf_ne_nil i)
    | cons d ds =>
      rw [hd] at hc
      cases hc
      have := Decimal.isDigit_of_mem_digitsOf (hd ▸ List.mem_cons_self ..)
      constructor <;> rintro rfl <;> exact absurd this (by decide)
  have hopen := Reads.cons (reads_mark (m := .openBracket) hstands) (hdigits.append hend)
  have hname : Reads Term.slotTable.toList [.name Term.slotTable]
      ('[' :: (Decimal.digitsOf i ++ "]".toList) ++ rest) := by
    refine reads_name (by decide) ?_
    intro c hc
    cases hc
    decide
  have := hname.append hopen
  simpa [Term.slotText, Term.slotTokens, String.toList_append, naturalToken] using this

theorem ends_later (layout : Layout) (level : Nat) (fs : List Field) (rest : List Char) :
    Ends (((Term.fieldTexts layout (level + 1) fs).flatMap fun u =>
        (layout.between level).toList ++ u.toList) ++ (layout.closing level).toList ++
      '\x7d' :: rest) := by
  cases fs with
  | nil => simpa [Term.fieldTexts] using ends_closing layout level rest
  | cons f fs =>
    simp only [Term.fieldTexts, List.flatMap_cons, List.append_assoc]
    exact ends_between layout level _

/-! ## First characters -/

/-- The text is not empty and does not make a long bracket of an opening bracket before it. -/
def Opens (cs : List Char) : Prop := ∃ c ds, cs = c :: ds ∧ c ≠ '[' ∧ c ≠ '='

theorem Opens.stands {cs : List Char} (h : Opens cs) (rest : List Char) :
    Mark.openBracket.Stands (cs ++ rest) := by
  obtain ⟨c, ds, rfl, hc⟩ := h
  intro d hd
  cases hd
  exact hc

theorem opens_of_isLiteral {cs : List Char} (h : IsLiteral cs) : Opens cs := by
  obtain ⟨c, plain, tail, rfl, hc, -, -⟩ := h
  refine ⟨c, plain ++ tail, rfl, ?_, ?_⟩ <;> rintro rfl <;> exact absurd hc (by decide)

theorem opens_signed (neg : Bool) {cs : List Char} (h : Opens cs) :
    Opens (if neg then '-' :: cs else cs) := by
  cases neg with
  | false => exact h
  | true => exact ⟨'-', cs, rfl, by decide⟩

theorem opens_numeral (n : Number) : Opens n.numeral.toList := by
  cases n with
  | integer i =>
    rw [Number.numeral]
    split
    · exact ⟨'(', _, rfl, by decide⟩
    · rw [String.toList_ofList]
      have := opens_signed (decide (i.toInt < 0))
        (opens_of_isLiteral (isLiteral_digitsOf i.toInt.natAbs))
      simpa [Number.integerText] using this
  | float x =>
    rw [Number.numeral]
    split
    · exact ⟨'(', _, rfl, by decide⟩
    · split
      · split <;> exact ⟨'(', _, rfl, by decide⟩
      · rw [String.toList_ofList]
        exact opens_signed _ (opens_of_isLiteral (isLiteral_text _).1)

theorem opens_atom (a : Atom) : Opens a.text.toList := by
  cases a with
  | nil => exact ⟨'n', _, rfl, by decide⟩
  | boolean b =>
    cases b
    · exact ⟨'f', _, rfl, by decide⟩
    · exact ⟨'t', _, rfl, by decide⟩
  | number n => exact opens_numeral n
  | string s =>
    rw [Atom.text, Text.Quoted.literal, String.toList_ofList]
    exact ⟨'"', _, rfl, by decide⟩
  | remark shown =>
    rw [Atom.text, String.toList_append, show "nil ".toList = ['n', 'i', 'l', ' '] from rfl]
    exact ⟨'n', _, rfl, by decide⟩

theorem opens_term (layout : Layout) (level : Nat) {n : Nat} {t : Term} (h : t.Writable n) :
    Opens (t.text layout level).toList := by
  cases t with
  | atom a => exact opens_atom a
  | slot i =>
    rw [Term.text, Term.slotText, String.toList_append, String.toList_append,
      String.toList_append, show Term.slotTable.toList = ['r', 'e', 'f'] from rfl]
    exact ⟨'r', _, rfl, by decide⟩
  | tooDeep => exact h.elim
  | table fs =>
    cases fs with
    | nil =>
      rw [Term.text, show "\x7b\x7d".toList = ['\x7b', '\x7d'] from rfl]
      exact ⟨_, _, rfl, by decide⟩
    | cons f fs =>
      simp only [Term.text, String.toList_append, show "\x7b".toList = ['\x7b'] from rfl]
      exact ⟨_, _, rfl, by decide⟩

/-! ## Terms -/

theorem toList_intercalate_cons (sep s : String) (ss : List String) :
    (sep.intercalate (s :: ss)).toList =
      s.toList ++ ss.flatMap fun u => sep.toList ++ u.toList := by
  induction ss generalizing s with
  | nil => simp
  | cons u ss ih =>
    rw [String.intercalate_cons_cons, String.toList_append, String.toList_append, ih,
      List.flatMap_cons, List.append_assoc, List.append_assoc]

/-- A text in brackets. -/
theorem reads_bracketed {s : String} {ts : List Token} (ho : Opens s.toList)
    (h : ∀ {rest : List Char}, Ends rest → Reads s.toList ts rest) (rest : List Char) :
    Reads ("[" ++ s ++ "]").toList (.mark .openBracket :: ts ++ [.mark .closeBracket]) rest := by
  have hends : Ends ([']'] ++ rest) := ends_cons (by decide)
  have hend := (h hends).append (reads_mark (m := .closeBracket) trivial)
  have hstands := ho.stands ([']'] ++ rest)
  rw [← List.append_assoc] at hstands
  have := Reads.cons (reads_mark (m := .openBracket) hstands) hend
  simpa [Mark.char, String.toList_append] using this

/-- A name after a dot. -/
theorem reads_dotName {name : String} (h : Text.Name.isName name = true) {rest : List Char}
    (hr : ∀ c ∈ rest.head?, Text.Name.isPart c = false) :
    Reads ("." ++ name).toList [.mark .dot, .name name] rest := by
  have hdot : Mark.dot.Stands (name.toList ++ rest) := by
    intro c hc
    cases hcs : name.toList with
    | nil => simp [Text.Name.isName, hcs, Text.Name.isWord] at h
    | cons d ds =>
      rw [hcs] at hc
      cases hc
      simp only [Text.Name.isName, hcs, Text.Name.isWord, Bool.and_eq_true] at h
      exact isDigit_of_isStart h.1.1
  rw [String.toList_append, show ".".toList = ['.'] from rfl]
  exact Reads.cons (reads_mark (m := .dot) hdot) (reads_name h hr)

/-- A key in brackets after the environment. -/
theorem reads_environmentKey {s : String} {ts : List Token} (ho : Opens s.toList)
    (h : ∀ {rest : List Char}, Ends rest → Reads s.toList ts rest) (rest : List Char) :
    Reads ("_ENV[" ++ s ++ "]").toList
      (.name "_ENV" :: .mark .openBracket :: ts ++ [.mark .closeBracket]) rest := by
  have hkey := reads_bracketed ho h rest
  have hname : Reads "_ENV".toList [.name "_ENV"] (("[" ++ s ++ "]").toList ++ rest) := by
    refine reads_name (by decide) ?_
    rw [String.append_assoc, String.toList_append, show "[".toList = ['['] from rfl]
    intro c hc
    cases hc
    decide
  have htext : "_ENV[" ++ s ++ "]" = "_ENV" ++ ("[" ++ s ++ "]") := by
    rw [← String.append_assoc, ← String.append_assoc]
    rfl
  rw [htext, String.toList_append]
  exact hname.append hkey

/-- The name that a key is written as is the whole key. -/
theorem eq_of_bareName? {t : Term} {name : String} (h : t.bareName? = some name) :
    t = .atom (.string name) := by
  unfold Term.bareName? Atom.bareName? at h
  split at h
  · split at h
    · split at h
      · cases h
        rfl
      · cases h
    · cases h
  · cases h

/-- The name that a key is written as is a name. -/
theorem isName_of_bareName? {t : Term} {name : String} (h : t.bareName? = some name) :
    Text.Name.isName name = true := by
  unfold Term.bareName? Atom.bareName? at h
  split at h
  · split at h
    · split at h
      · cases h
        assumption
      · cases h
    · cases h
  · cases h

variable {n : Nat}

mutual

/-- **The text of a writable term is read as its tokens.** -/
theorem reads_term (hn : n < 2 ^ 63) (layout : Layout) (level : Nat) : (t : Term) → t.Writable n →
    ∀ {rest : List Char}, Ends rest →
      Reads (t.text layout level).toList (t.tokens layout.trailing) rest
  | .atom a, _, _, hr => reads_atom a hr
  | .slot _, h, rest, _ => reads_slot (Nat.lt_of_le_of_lt h.2 hn) rest
  | .table [], _, rest, _ => by
    rw [Term.text, show "\x7b\x7d".toList = ['\x7b', '\x7d'] from rfl]
    exact Reads.cons (reads_mark (m := .openBrace) trivial)
      (reads_mark (m := .closeBrace) trivial)
  | .table (f :: fs), h, rest, _ => by
    have hlater := reads_later hn layout level fs h.2 rest
    have hfield := reads_field hn layout (level + 1) f h.1
      (ends_later layout level fs rest)
    have hfields := (reads_opening layout level _).append
      ((hfield.append hlater).append (reads_mark (m := .closeBrace) trivial))
    have := Reads.cons (reads_mark (m := .openBrace) trivial) hfields
    simpa only [Term.text, Term.fieldTexts, Term.tokens, Term.fieldsTokens, String.toList_append,
      toList_intercalate_cons, show "\x7b".toList = ['\x7b'] from rfl,
      show "\x7d".toList = ['\x7d'] from rfl, Mark.char, List.append_assoc, List.cons_append,
      List.nil_append] using this

/-- The fields after another are read as the tokens after a field. -/
theorem reads_later (hn : n < 2 ^ 63) (layout : Layout) (level : Nat) : (fs : List Field) →
    Term.FieldsWritable n fs → ∀ rest : List Char,
      Reads (((Term.fieldTexts layout (level + 1) fs).flatMap fun u =>
        (layout.between level).toList ++ u.toList) ++ (layout.closing level).toList)
        (Term.laterTokens layout.trailing fs) ('\x7d' :: rest)
  | [], _, rest => by
    simpa [Term.fieldTexts, Term.laterTokens] using reads_closing layout level ('\x7d' :: rest)
  | f :: fs, h, rest => by
    have hlater := reads_later hn layout level fs h.2 rest
    have hfield := reads_field hn layout (level + 1) f h.1
      (ends_later layout level fs rest)
    have := (reads_between layout level _).append (hfield.append hlater)
    simpa only [Term.fieldTexts, Term.laterTokens, List.flatMap_cons, List.append_assoc,
      List.cons_append, List.nil_append] using this

/-- A field is read as its tokens. -/
theorem reads_field (hn : n < 2 ^ 63) (layout : Layout) (level : Nat) :
    (f : Field) → Term.FieldWritable n f →
    ∀ {rest : List Char}, Ends rest →
      Reads (Term.fieldText layout level f).toList (Term.fieldTokens layout.trailing f) rest
  | .item v, h, _, hr => reads_term hn layout level v h hr
  | .pair k v, h, rest, hr => by
    have hvalue := reads_assigned (reads_term hn layout level v h.2 hr)
    rw [Term.fieldText, Term.fieldTokens, String.append_assoc, String.toList_append]
    refine Reads.append ?_ hvalue
    cases hk : k.bareName? with
    | some name => exact reads_name (isName_of_bareName? hk) (isPart_equals _ rest)
    | none =>
      exact reads_bracketed (opens_term layout level h.1) (reads_term hn layout level k h.1) _

end

/-! ## Statements -/

theorem reads_line {s : String} {ts : List Token}
    (h : ∀ {rest : List Char}, Ends rest → Reads s.toList ts rest) (rest : List Char) :
    Reads (s ++ "\n").toList ts rest := by
  rw [String.toList_append, show "\n".toList = ['\n'] from rfl]
  have hends : Ends (['\n'] ++ rest) := ends_cons (by decide)
  have := (h hends).append (reads_blank (by decide) rest)
  rwa [List.append_nil] at this

variable (hn : n < 2 ^ 63)
include hn

/-- A fill statement is read as its tokens. -/
theorem reads_fill (layout : Layout) {f : Fill} (h : f.Writable n) (rest : List Char) :
    Reads (f.text layout).toList (f.tokens layout.trailing) rest := by
  obtain ⟨hslot, hkey, hvalue⟩ := h
  refine reads_line (fun {rest} hr => ?_) rest
  have hvalue := reads_assigned (reads_term hn layout 0 f.value hvalue hr)
  rw [Fill.tokens, String.append_assoc, String.append_assoc, String.toList_append,
    List.append_assoc]
  refine Reads.append (reads_slot (Nat.lt_of_le_of_lt hslot.2 hn) _) ?_
  rw [String.toList_append]
  refine Reads.append ?_ hvalue
  rw [Term.suffixTokens]
  cases hk : f.key.bareName? with
  | some name =>
    exact reads_dotName (isName_of_bareName? hk) (isPart_equals (f.value.text layout 0) rest)
  | none => exact reads_bracketed (opens_term layout 0 hkey) (reads_term hn layout 0 f.key hkey) _

/-- A binding is read as its tokens. -/
theorem reads_binding (layout : Layout) (slots : Nat) {b : Binding} (h : b.Writable n)
    (rest : List Char) :
    Reads (b.text layout slots).toList (b.tokens layout.trailing slots) rest := by
  refine reads_line (fun {rest} hr => ?_) rest
  have hvalue := reads_assigned (reads_term hn layout 0 b.value h.2 hr)
  rw [Binding.tokens, String.append_assoc, String.toList_append]
  refine Reads.append ?_ hvalue
  cases hg : b.globalName? slots with
  | some name =>
    refine reads_name ?_ (isPart_equals _ rest)
    unfold Binding.globalName? at hg
    split at hg
    · split at hg
      · cases hg
      · cases hg
        exact isName_of_bareName? (by assumption)
    · cases hg
  | none =>
    exact reads_environmentKey (opens_term layout 0 h.1) (reads_term hn layout 0 b.key h.1) _

/-! ## Documents -/

omit hn in
theorem reads_flatMap {α : Type} {text : α → List Char} {tokens : α → List Token} {xs : List α}
    (h : ∀ x ∈ xs, ∀ rest, Reads (text x) (tokens x) rest) (rest : List Char) :
    Reads (xs.flatMap text) (xs.flatMap tokens) rest := by
  induction xs with
  | nil => exact reads_nil rest
  | cons x xs ih =>
    rw [List.flatMap_cons, List.flatMap_cons]
    exact (h x (List.mem_cons_self ..) _).append
      (ih fun y hy => h y (List.mem_cons_of_mem x hy))

/-- The statements that make the tables in the slots are read as their tokens. -/
theorem reads_preamble (rest : List Char) :
    Reads (Document.preamble n).toList (Document.preambleTokens n) rest := by
  have hend : Reads "end\n".toList [.keyword "end"] rest :=
    reads_wordBlank (s := "end") (c := '\n') (by decide) (by decide) (reads_nil rest)
  have hbody : Reads " do ref[i] = \x7b\x7d end\n".toList
      ((Document.preambleTokens n).drop 11) rest :=
    Reads.blank (reads_wordBlank (s := "do") (by decide) (by decide)
      (reads_wordMark (s := "ref") (m := .openBracket) (by decide) (by decide)
        (by rintro d ⟨⟩; decide)
        (reads_wordMark (s := "i") (m := .closeBracket) (by decide) (by decide) trivial
          (hend.blank (c := ' ') (by decide)).braces.equals))) (by decide)
  have hlimit := (reads_digits hn (ends_cons (c := ' ') (by decide))).append hbody
  have hone := (reads_digits (n := 1) (by decide) (ends_cons (c := ',') (by decide))).append
    ((hlimit.blank (c := ' ') (by decide)).mark (m := .comma) trivial)
  have hfor := reads_wordBlank (s := "for") (c := ' ') (by decide) (by decide)
    (reads_wordEquals (s := "i") (by decide) hone)
  have hlocal := reads_wordBlank (s := "local") (c := ' ') (by decide) (by decide)
    (reads_wordEquals (s := "ref") (by decide) (hfor.blank (c := '\n') (by decide)).braces)
  have htext : (Document.preamble n).toList = "local ref = \x7b\x7d\nfor i = 1, ".toList ++
      (Decimal.digitsOf n ++ " do ref[i] = \x7b\x7d end\n".toList) := by
    unfold Document.preamble
    simp only [String.toList_append, String.toList_ofList, List.append_assoc]
    rfl
  rw [htext]
  exact hlocal

/-- A group of fill statements is read as its tokens. -/
theorem reads_block (layout : Layout) (split : Bool) {block : List Fill}
    (h : ∀ f ∈ block, f.Writable n) (rest : List Char) :
    Reads (Document.blockText layout split block).toList
      (Document.blockTokens layout.trailing split block) rest := by
  have hbody (rest : List Char) : Reads (String.join (block.map (·.text layout))).toList
      (block.flatMap (·.tokens layout.trailing)) rest := by
    rw [String.toList_join, List.flatMap_map]
    exact reads_flatMap (fun f hf rest => reads_fill hn layout (h f hf) rest) rest
  cases split with
  | false => exact hbody rest
  | true =>
    have hclosing : Reads Document.blockClosing.toList [.keyword "end", .mark .closeParen,
        .mark .openParen, .mark .closeParen, .mark .semicolon] rest :=
      reads_wordMark (s := "end") (m := .closeParen) (by decide) (by decide) trivial
        ((((((reads_nil rest).blank (c := '\n') (by decide)).mark (m := .semicolon) trivial).mark
          (m := .closeParen) trivial)).mark (m := .openParen) trivial)
    have hopening : Reads Document.blockOpening.toList [.mark .openParen, .keyword "function",
        .mark .openParen, .mark .closeParen]
        ((String.join (block.map (·.text layout))).toList ++
          (Document.blockClosing.toList ++ rest)) :=
      Reads.mark (m := .openParen) (reads_wordMark (s := "function") (m := .openParen) (by decide)
        (by decide) trivial
          (((reads_nil _).blank (c := '\n') (by decide)).mark (m := .closeParen) trivial)) trivial
    rw [Document.blockText, if_pos rfl, Document.blockTokens, if_pos rfl, String.toList_append,
      String.toList_append, List.append_assoc, List.append_assoc]
    refine Reads.append ?_ ((hbody _).append hclosing)
    rwa [List.append_assoc]

omit hn in
/-- **The text of a writable document is cut into its tokens.** -/
theorem spells_text (layout : Layout) {d : Document} (h : d.Writable) :
    Spells (d.text layout).toList (d.tokens layout.trailing) := by
  refine Reads.spells ?_
  rw [Document.text, Document.tokens, String.toList_append, String.toList_append,
    List.append_assoc, List.append_assoc]
  refine Reads.append ?_ (Reads.append ?_ ?_)
  · split
    · rw [String.toList_empty]
      exact reads_nil _
    · exact reads_preamble h.slots _
  · rw [String.toList_join, List.flatMap_map]
    exact reads_flatMap (fun block hb => reads_block h.slots layout d.split (h.fills block hb)) _
  · rw [String.toList_join, List.flatMap_map]
    exact reads_flatMap (fun b hb => reads_binding h.slots layout d.slots (h.bindings b hb)) _

end LuaGraph
