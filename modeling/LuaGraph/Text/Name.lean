/-!
# Names

A name is a word of letters, digits and underscores that does not start with a digit and is not
reserved. Letters and digits are those of the basic alphabet.

`keywords` is `KEYWORDS`, `isKeyword` is `is_keyword` and `isName` is `is_identifier`.
-/

namespace LuaGraph.Text.Name

/-- The reserved words. -/
def keywords : List String :=
  ["and", "break", "do", "else", "elseif", "end", "false", "for", "function", "goto", "if", "in",
    "local", "nil", "not", "or", "repeat", "return", "then", "true", "until", "while"]

/-- A reserved word. -/
def isKeyword (s : String) : Bool := keywords.contains s

/-- A character that can start a word. -/
def isStart (c : Char) : Bool :=
  decide ('a' ≤ c ∧ c ≤ 'z') || decide ('A' ≤ c ∧ c ≤ 'Z') || c == '_'

/-- A character that can stand in a word. -/
def isPart (c : Char) : Bool := isStart c || decide ('0' ≤ c ∧ c ≤ '9')

/-- A word, reserved or not. -/
def isWord : List Char → Bool
  | [] => false
  | c :: cs => isStart c && cs.all isPart

/-- A word that can be used as a name. -/
def isName (s : String) : Bool := isWord s.toList && !isKeyword s

end LuaGraph.Text.Name
