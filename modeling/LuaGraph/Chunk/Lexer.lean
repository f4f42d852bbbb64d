import LuaGraph.Chunk.Token
import LuaGraph.Text.Blank
import LuaGraph.Text.LongBracket
import LuaGraph.Text.Name

/-!
# From characters to tokens

A text is cut into pieces: tokens, and the blanks and comments between them. A reader is given the
characters from the start of a piece on and answers with what the piece is and how many characters
it takes, or with a fault and the number of characters after which it is found. Positions are
computed from these numbers alone.

`lex` is `tokenize`, `scanPiece` is one turn of it, and `scanComment` that of `skip_trivia`. The
others are `scanWord` for `read_name`, `scanNumber` for `read_number`, `scanString` for
`read_string`, `scanEscape` for `read_escape` and `scanLong` for `read_long_bracket`.
-/

namespace LuaGraph.Chunk

/-- What is read and how many characters it takes, or a fault and the number of characters read
before it. -/
abbrev Scan (α : Type) := Except (Nat × GrammarFault) (α × Nat)

/-! ## Characters -/

/-- A letter or digit of the basic alphabet. -/
def isAlphanumeric (c : Char) : Bool := Text.Name.isPart c && c != '_'

/-- The value of a hexadecimal digit. -/
def hexDigit? (c : Char) : Option Nat :=
  if '0' ≤ c ∧ c ≤ '9' then some (c.toNat - '0'.toNat)
  else if 'a' ≤ c ∧ c ≤ 'f' then some (c.toNat - 'a'.toNat + 10)
  else if 'A' ≤ c ∧ c ≤ 'F' then some (c.toNat - 'A'.toNat + 10)
  else none

/-- The number that hexadecimal digits stand for. -/
def natOfHex (cs : List Char) : Nat := cs.foldl (fun n c => 16 * n + (hexDigit? c).getD 0) 0

/-! ## Numerals -/

/-- The number of characters of a decimal numeral, well formed or not: digits, points, and letters
of an exponent. Right after such a letter a sign belongs to it. -/
def numeralLength (afterLetter : Bool) : List Char → Nat
  | [] => 0
  | c :: cs =>
    if Decimal.isDigit c || c == '.' then numeralLength false cs + 1
    else if c == 'e' || c == 'E' then numeralLength true cs + 1
    else if afterLetter && (c == '+' || c == '-') then numeralLength false cs + 1
    else 0

/-- Reads a hexadecimal numeral from the digits on. Integers wrap around. -/
def scanHex (cs : List Char) : Scan Token :=
  let ds := cs.takeWhile fun c => (hexDigit? c).isSome
  let next := (cs.drop ds.length).head?
  if ds.isEmpty || next.any (fun c => isAlphanumeric c || c == '.') then
    .error (ds.length + 2, .malformedNumber)
  else .ok (.integer (Int64.ofNat (natOfHex ds)), ds.length + 2)

/-- Reads a decimal numeral: an integer if it has digits only and is not too large, else a
float. -/
def scanDecimal (cs : List Char) : Scan Token :=
  let n := numeralLength false cs
  let text := cs.take n
  if (cs.drop n).head?.any Text.Name.isPart then .error (n, .malformedNumber)
  else if text.all Decimal.isDigit && decide (Decimal.natOfDigits text < 2 ^ 63) then
    .ok (.integer (Int64.ofNat (Decimal.natOfDigits text)), n)
  else
    match Decimal.read? text with
    | some d => .ok (.float d.toFloat, n)
    | none => .error (n, .malformedNumeral (String.ofList text))

/-- Reads a numeral. -/
def scanNumber : List Char → Scan Token
  | '0' :: 'x' :: cs => scanHex cs
  | '0' :: 'X' :: cs => scanHex cs
  | cs => scanDecimal cs

/-! ## Strings -/

/-- Reads the code point of an escape up to the closing brace. -/
def codePointFrom (value n : Nat) : List Char → Scan Nat
  | [] => .error (n, .noHexDigit)
  | c :: cs =>
    if c = '\x7d' then .ok (value, n + 1)
    else
      match hexDigit? c with
      | none => .error (n + 1, .noHexDigit)
      | some d =>
        if 16 * value + d < 2 ^ 32 then codePointFrom (16 * value + d) (n + 1) cs
        else .error (n + 1, .codePointTooLarge)

/-- Reads a code point in braces. -/
def scanCodePoint : List Char → Scan ByteArray
  | [] => .error (0, .noBrace)
  | c :: cs =>
    if c = '\x7b' then
      match codePointFrom 0 1 cs with
      | .error e => .error e
      | .ok (value, n) =>
        if value.isValidChar then .ok ((String.singleton (Char.ofNat value)).toUTF8, n)
        else .error (n, .codePointTooLarge)
    else .error (1, .noBrace)

/-- Reads a byte of two hexadecimal digits. -/
def scanHexByte : List Char → Scan ByteArray
  | [] => .error (0, .noHexDigit)
  | c :: cs =>
    match hexDigit? c with
    | none => .error (1, .noHexDigit)
    | some high =>
      match cs with
      | [] => .error (1, .noHexDigit)
      | d :: _ =>
        match hexDigit? d with
        | none => .error (2, .noHexDigit)
        | some low => .ok (⟨#[UInt8.ofNat (16 * high + low)]⟩, 2)

/-- Reads a byte of up to three decimal digits. -/
def scanDecimalByte (cs : List Char) : Scan ByteArray :=
  let ds := (cs.take 3).takeWhile Decimal.isDigit
  let value := Decimal.natOfDigits ds
  if value < 256 then .ok (⟨#[UInt8.ofNat value]⟩, ds.length)
  else .error (ds.length, .decimalTooLarge)

/-- What a character after a backslash stands for by itself. -/
def simpleEscape? (c : Char) : Option Nat :=
  match c with
  | 'n' => some 0x0a
  | '\n' => some 0x0a
  | 't' => some 0x09
  | 'r' => some 0x0d
  | 'a' => some 0x07
  | 'b' => some 0x08
  | 'f' => some 0x0c
  | 'v' => some 0x0b
  | '\\' => some 0x5c
  | '"' => some 0x22
  | '\'' => some 0x27
  | _ => none

/-- One character more. -/
def Scan.shift {α : Type} : Scan α → Scan α
  | .ok (a, n) => .ok (a, n + 1)
  | .error (n, f) => .error (n + 1, f)

/-- Reads what follows a backslash. -/
def scanEscape : List Char → Scan ByteArray
  | [] => .error (0, .unfinishedString)
  | c :: cs =>
    match simpleEscape? c with
    | some byte => .ok (⟨#[UInt8.ofNat byte]⟩, 1)
    | none =>
      if c = 'z' then .ok (.empty, (cs.takeWhile Text.Blank.isBlank).length + 1)
      else if c = 'x' then (scanHexByte cs).shift
      else if c = 'u' then (scanCodePoint cs).shift
      else if Decimal.isDigit c then scanDecimalByte (c :: cs)
      else .error (1, .unknownEscape c)

/-- Reads a string up to the closing quote; `n` characters were read and stand for `bytes`. -/
def stringFrom (quote : Char) (n : Nat) (bytes : ByteArray) (cs : List Char) : Scan ByteArray :=
  match cs with
  | [] => .error (n, .unfinishedString)
  | c :: cs =>
    if c = '\n' then .error (n + 1, .unfinishedString)
    else if c = quote then .ok (bytes, n + 1)
    else if c = '\\' then
      match scanEscape cs with
      | .error (k, f) => .error (n + 1 + k, f)
      | .ok (more, k) => stringFrom quote (n + 1 + k) (bytes ++ more) (cs.drop k)
    else stringFrom quote (n + 1) (bytes ++ (String.singleton c).toUTF8) cs
termination_by cs.length
decreasing_by all_goals simp only [List.length_cons, List.length_drop]; omega

/-- Reads a quoted string after its opening quote. -/
def scanString (quote : Char) (cs : List Char) : Scan Token :=
  match stringFrom quote 1 .empty cs with
  | .error e => .error e
  | .ok (bytes, n) =>
    match String.fromUTF8? bytes with
    | some s => .ok (.string s, n)
    | none => .error (n, .invalidText)

/-- Reads a long bracket of the given level. A newline right after the opening bracket does not
belong to the content. -/
def scanLong (level : Nat) (cs : List Char) : Scan String :=
  let opened := level + 2
  let body := cs.drop opened
  let (start, body) := match body with
    | '\n' :: rest => (opened + 1, rest)
    | body => (opened, body)
  match Text.LongBracket.closingAt? level body with
  | some i => .ok (String.ofList (body.take i), start + i + level + 2)
  | none => .error (start, .unfinishedLong)

/-! ## Pieces -/

/-- Reads a comment after its two dashes. -/
def scanComment (cs : List Char) : Scan Unit :=
  match Text.LongBracket.level? cs with
  | some level => (scanLong level cs).map fun p => ((), p.2)
  | none => .ok ((), (cs.takeWhile (· != '\n')).length)

/-- Reads a word. -/
def scanWord (cs : List Char) : Scan Token :=
  let word := String.ofList (cs.takeWhile Text.Name.isPart)
  let token := if Text.Name.isKeyword word then Token.keyword word else Token.name word
  .ok (token, (cs.takeWhile Text.Name.isPart).length)

/-- Reads a mark or a long string. -/
def scanMark (c : Char) (cs : List Char) : Scan Token :=
  match Text.LongBracket.level? (c :: cs) with
  | some level => (scanLong level (c :: cs)).map fun p => (.string p.1, p.2)
  | none =>
    match Mark.ofChar? c with
    | some m => .ok (.mark m, 1)
    | none => .error (0, .unexpected (String.singleton c))

/-- **Reads one piece** that starts with the given character: a token, or nothing for blanks and
comments. -/
def scanPiece (c : Char) (cs : List Char) : Scan (Option Token) :=
  let token (s : Scan Token) : Scan (Option Token) := s.map fun p => (some p.1, p.2)
  if Text.Blank.isBlank c then .ok (none, 1)
  else if c = '-' ∧ cs.head? = some '-' then
    ((scanComment (cs.drop 1)).shift.shift).map fun p => (none, p.2)
  else if Text.Name.isStart c then token (scanWord (c :: cs))
  else if Decimal.isDigit c || (c == '.' && cs.head?.any Decimal.isDigit) then
    token (scanNumber (c :: cs))
  else if c = '"' ∨ c = '\'' then token (scanString c cs)
  else token (scanMark c cs)

/-! ## Texts -/

/-- The tokens of a text and the position of its end. -/
structure Lexemes where
  lexemes : List Lexeme
  stop : Position

/-- Cuts the rest of a text into pieces, given its position and the lexemes before it. -/
def lexFrom (p : Position) (done : Array Lexeme) (cs : List Char) :
    Except (Position × GrammarFault) Lexemes :=
  match cs with
  | [] => .ok ⟨done.toList, p⟩
  | c :: cs =>
    match scanPiece c cs with
    | .error (n, f) => .error (p.after ((c :: cs).take n), f)
    | .ok (token?, n) =>
      let done := match token? with
        | some token => done.push ⟨token, p⟩
        | none => done
      lexFrom (p.after ((c :: cs).take n)) done (cs.drop (n - 1))
termination_by cs.length
decreasing_by simp only [List.length_cons, List.length_drop]; omega

/-- **The tokens of a text.** -/
def lex (text : String) : Except (Position × GrammarFault) Lexemes := lexFrom {} #[] text.toList

end LuaGraph.Chunk
