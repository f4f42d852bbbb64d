import LuaGraph.Error
import LuaGraph.Number

/-!
# Tokens

The words of a chunk, and where they stand. A position counts lines and the characters of a line
from one; a newline ends its line.

`Token` is `Tok` and `Lexeme` is `Token`; `Token.shown` is `describe`, and a `Mark` is one of the
`SYMBOLS`.
-/

namespace LuaGraph.Chunk

/-! ## Positions -/

/-- A line and a column. -/
structure Position where
  line : Nat := 1
  column : Nat := 1
deriving DecidableEq, Repr

namespace Position

/-- The position after a character. -/
def next (p : Position) (c : Char) : Position :=
  if c = '\n' then ⟨p.line + 1, 1⟩ else ⟨p.line, p.column + 1⟩

/-- The position after some characters. -/
def after (p : Position) (cs : List Char) : Position := cs.foldl next p

@[simp] theorem after_nil (p : Position) : p.after [] = p := rfl

@[simp] theorem after_append (p : Position) (cs ds : List Char) :
    p.after (cs ++ ds) = (p.after cs).after ds :=
  List.foldl_append

end Position

/-! ## Tokens -/

/-- A mark of one character. -/
inductive Mark
  | equals
  | openParen
  | closeParen
  | openBrace
  | closeBrace
  | openBracket
  | closeBracket
  | comma
  | semicolon
  | dot
  | plus
  | minus
  | star
  | slash
deriving DecidableEq, Repr

namespace Mark

/-- The character of a mark. -/
def char : Mark → Char
  | equals => '='
  | openParen => '('
  | closeParen => ')'
  | openBrace => '\x7b'
  | closeBrace => '\x7d'
  | openBracket => '['
  | closeBracket => ']'
  | comma => ','
  | semicolon => ';'
  | dot => '.'
  | plus => '+'
  | minus => '-'
  | star => '*'
  | slash => '/'

/-- All marks. -/
def all : List Mark :=
  [equals, openParen, closeParen, openBrace, closeBrace, openBracket, closeBracket, comma,
    semicolon, dot, plus, minus, star, slash]

/-- The mark of a character. -/
def ofChar? (c : Char) : Option Mark := all.find? fun m => m.char == c

theorem ofChar?_char (m : Mark) : ofChar? m.char = some m := by cases m <;> rfl

end Mark

/-- A word of a chunk. -/
inductive Token
  | name (s : String)
  | keyword (s : String)
  | integer (i : Int64)
  | float (x : Float)
  | string (s : String)
  | mark (m : Mark)
deriving DecidableEq

/-- A token as it is shown in messages. -/
def Token.shown : Token → String
  | name s => s
  | keyword s => s
  | integer i => String.ofList (Number.integerText i.toInt)
  | float x => Number.messageText x
  | string s => s
  | mark m => String.singleton m.char

/-- A token and where it starts. -/
structure Lexeme where
  token : Token
  position : Position
deriving DecidableEq

end LuaGraph.Chunk
