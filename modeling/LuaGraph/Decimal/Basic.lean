import LuaGraph.Binary64

/-!
# Decimal numbers

A decimal is a natural number of digits times a power of ten. It is read from text by a small
grammar (digits, an optional point, an optional exponent) and rounded to a binary magnitude by
`Binary64.nearest`.

`read?` and `toFloat` are the `parse` of a float, as `read_number` calls it.
-/

namespace LuaGraph

open Binary64

/-- The value `digits * 10 ^ exponent`. -/
structure Decimal where
  digits : Nat
  exponent : Int
deriving DecidableEq, Repr

namespace Decimal

/-! ## Digits -/

/-- A decimal digit of the basic alphabet. -/
def isDigit (c : Char) : Bool := decide ('0' ≤ c ∧ c ≤ '9')

/-- The number that a run of digits stands for. -/
def natOfDigits (cs : List Char) : Nat :=
  cs.foldl (fun n c => 10 * n + (c.toNat - '0'.toNat)) 0

/-- The digits of a number, most significant first. -/
def digitsOf (n : Nat) : List Char := Nat.toDigits 10 n

/-- Moves trailing zeros of the digits into the exponent. -/
def trim (d : Decimal) : Decimal :=
  if h : d.digits ≠ 0 ∧ d.digits % 10 = 0 then trim ⟨d.digits / 10, d.exponent + 1⟩ else d
termination_by d.digits
decreasing_by omega

/-! ## Rounding -/

/-- **The binary magnitude closest to a decimal.** Powers of ten far outside the range of finite
numbers are not computed: from `10 ^ 400` on a value is infinite, and below `10 ^ (-400)` it is
zero. -/
def toMagnitude (d : Decimal) : Nat :=
  if d.digits = 0 then 0
  else if 400 < d.exponent then infinity
  else if (d.digits.log2 + 1 + 1200 : Int) ≤ -3 * d.exponent then 0
  else nearest (d.digits * 10 ^ d.exponent.toNat) (10 ^ (-d.exponent).toNat)

/-- The number closest to a decimal. -/
def toFloat (d : Decimal) : Float := ofMagnitude false d.toMagnitude

/-! ## Reading -/

/-- The exponent that a run of digits stands for. From `2 ^ 16` on it is far out of range, and
further digits do not count. -/
def exponentOfDigits (cs : List Char) : Nat :=
  cs.foldl (fun n c => if n < 2 ^ 16 then 10 * n + (c.toNat - '0'.toNat) else n) 0

/-- The exponent part: nothing, or a letter, an optional sign and at least one digit. -/
def exponent? : List Char → Option Int
  | [] => some 0
  | c :: cs =>
    if c = 'e' ∨ c = 'E' then
      let (sign, ds) : Int × List Char := match cs with
        | '+' :: ds => (1, ds)
        | '-' :: ds => (-1, ds)
        | ds => (1, ds)
      if ds ≠ [] ∧ ds.all isDigit then some (sign * exponentOfDigits ds) else none
    else none

/-- Reads a whole text: digits with at most one point among or beside them, then an exponent
part. -/
def read? (cs : List Char) : Option Decimal :=
  let whole := cs.takeWhile isDigit
  let (fraction, tail) := match cs.dropWhile isDigit with
    | '.' :: r => (r.takeWhile isDigit, r.dropWhile isDigit)
    | r => ([], r)
  if whole ++ fraction = [] then none
  else (exponent? tail).map fun e => ⟨natOfDigits (whole ++ fraction), e - fraction.length⟩

end Decimal

end LuaGraph
