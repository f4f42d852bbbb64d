/-!
# Blank characters

The characters with the Unicode property of white space.

`isBlank` is `is_whitespace`, by which the lexer skips blanks.
-/

namespace LuaGraph.Text.Blank

/-- The ranges of blank characters, ascending. -/
def ranges : List (Nat × Nat) :=
  [(0x9, 0xd), (0x20, 0x20), (0x85, 0x85), (0xa0, 0xa0), (0x1680, 0x1680), (0x2000, 0x200a),
    (0x2028, 0x2029), (0x202f, 0x202f), (0x205f, 0x205f), (0x3000, 0x3000)]

/-- A blank character. -/
def isBlank (c : Char) : Bool :=
  ranges.any fun r => decide (r.1 ≤ c.toNat) && decide (c.toNat ≤ r.2)

/-- The ranges hold 25 characters. -/
example : (ranges.map fun r => r.2 - r.1 + 1).sum = 25 := by decide

end LuaGraph.Text.Blank
