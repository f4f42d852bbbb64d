/-!
# Long brackets

A long bracket of level `n` opens with `[`, `n` equals signs and `[`, and ends at the first
closing bracket of the same level, whatever stands between. `freeLevel` finds the least level at
which a text can be enclosed so that it is closed by its own closing bracket only.

`level?` is `long_bracket_level`, `closingAt?` finds the end for `read_long_bracket`, and `comment`
is `long_comment`.
-/

namespace LuaGraph.Text.LongBracket

/-- The opening bracket of a level. -/
def opening (level : Nat) : List Char := '[' :: List.replicate level '=' ++ ['[']

/-- The closing bracket of a level. -/
def closing (level : Nat) : List Char := ']' :: List.replicate level '=' ++ [']']

/-- The level of the opening bracket that the text starts with. -/
def level? : List Char → Option Nat
  | '[' :: cs =>
    let level := (cs.takeWhile (· == '=')).length
    if (cs.drop level).head? == some '[' then some level else none
  | _ => none

/-- The place of the first occurrence, counted from `i`. -/
def findFrom (pattern : List Char) : List Char → Nat → Option Nat
  | [], i => if pattern.isEmpty then some i else none
  | c :: cs, i => if pattern.isPrefixOf (c :: cs) then some i else findFrom pattern cs (i + 1)

/-- The place of the first closing bracket of a level. -/
def closingAt? (level : Nat) (cs : List Char) : Option Nat := findFrom (closing level) cs 0

/-- The text is closed by the bracket after it and by nothing before. -/
def isFree (cs : List Char) (level : Nat) : Bool :=
  closingAt? level (cs ++ closing level) == some cs.length

/-- **The least level at which a text can be enclosed.** A closing bracket longer than the text
cannot start inside it, so one of the levels up to its length is free. -/
def freeLevel (cs : List Char) : Nat :=
  ((List.range (cs.length + 1)).find? (isFree cs)).getD (cs.length + 1)

/-- The text in long brackets of the least free level. -/
def enclose (cs : List Char) : List Char :=
  let level := freeLevel cs
  opening level ++ cs ++ closing level

/-- A comment that holds the text. -/
def comment (text : String) : String := String.ofList ('-' :: '-' :: enclose text.toList)

end LuaGraph.Text.LongBracket
