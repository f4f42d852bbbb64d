import LuaGraph.Decimal.Style

/-!
# Numbers

A number is a 64-bit integer or a binary64 float. Conventions:

* A float that equals a 64-bit integer is *the same number* as that integer: `canonical` turns it
  into the integer, and `same` compares canonical forms. NaN is the same as nothing.
* The *order* of numbers compares two integers exactly and everything else as floats, an integer
  before an equal float.
* `display` is the text for readers, `numeral` the text that a chunk holds. They differ where no
  literal exists: infinities, NaN and the least integer are written as small computations.

`canonical` is `normalized`, `same` is `==` of numbers, `order` is `compare_numbers`, `toInteger?`
and `toFloat` are `as_i64` and `as_f64`, and `numeral` is `format_number`. `messageText` is the text
of a float in the messages of the lexer.

Out of scope: hashes. They agree with `same` and decide nothing.
-/

namespace LuaGraph

open Binary64

/-- The two kinds of numbers. -/
inductive Number
  | integer (i : Int64)
  | float (x : Float)
deriving DecidableEq

namespace Number

/-! ## Kinds and conversions -/

/-- The integers that 64 bits can hold. -/
def fits (n : Int) : Bool := decide (-2 ^ 63 ≤ n ∧ n < 2 ^ 63)

/-- An integer, not a float. -/
def isInteger : Number → Bool
  | integer _ => true
  | float _ => false

/-- A float, not an integer. -/
def isFloat : Number → Bool
  | integer _ => false
  | float _ => true

/-- A float that stands for no number. -/
def isNaN : Number → Bool
  | integer _ => false
  | float x => Binary64.isNaN x

/-- The number as a float; large integers are rounded. -/
def toFloat : Number → Float
  | integer i => ofInt i.toInt
  | float x => x

/-- The integer in place of a float that equals it. -/
def canonical : Number → Number
  | integer i => integer i
  | float x =>
    match toInt? x with
    | some n => if fits n then integer (Int64.ofInt n) else float x
    | none => float x

/-- The 64-bit integer that the number equals, if it is one. -/
def toInteger? (n : Number) : Option Int64 :=
  match n.canonical with
  | integer i => some i
  | float _ => none

/-- The two are the same number. -/
def same (a b : Number) : Bool :=
  match a.canonical, b.canonical with
  | integer i, integer j => i == j
  | float x, float y => Binary64.equal x y
  | _, _ => false

/-! ## Order -/

/-- The order in which numbers are written. NaN is level with every number. -/
def order : Number → Number → Ordering
  | integer i, integer j => compare i.toInt j.toInt
  | a, b => ((compare? a.toFloat b.toFloat).getD .eq).then (compare a.isFloat.toNat b.isFloat.toNat)

/-! ## Text -/

/-- Decimal digits after a sign for negative integers. -/
def integerText (n : Int) : List Char :=
  if n < 0 then '-' :: Decimal.digitsOf n.natAbs else Decimal.digitsOf n.natAbs

/-- Floats are written positionally from `10 ^ (-4)` up to below `10 ^ 16`, and whole ones keep a
point and a zero, so that no float reads as an integer. -/
def floatStyle : Decimal.Style := ⟨fun k => decide (-4 ≤ k ∧ k ≤ 15), true⟩

/-- In messages floats are written positionally, whole ones without a point. -/
def messageStyle : Decimal.Style := ⟨fun _ => true, false⟩

/-- A float in messages. -/
def messageText (x : Float) : String :=
  if Binary64.isNaN x then "NaN"
  else if isInfinite x then if negative x then "-inf" else "inf"
  else String.ofList (Decimal.finiteText messageStyle x)

/-- The text of a number for readers. -/
def display : Number → String
  | integer i => String.ofList (integerText i.toInt)
  | float x =>
    if Binary64.isNaN x then "nan"
    else if isInfinite x then if negative x then "-inf" else "inf"
    else String.ofList (Decimal.finiteText floatStyle x)

/-- **The expression that a chunk holds for a number.** The least integer has no literal, since
its digits alone exceed the greatest one. -/
def numeral : Number → String
  | integer i =>
    if i.toInt = -2 ^ 63 then "(-9223372036854775807 - 1)"
    else String.ofList (integerText i.toInt)
  | float x =>
    if Binary64.isNaN x then "(0/0)"
    else if isInfinite x then if negative x then "(-1/0)" else "(1/0)"
    else String.ofList (Decimal.finiteText floatStyle x)

/-! ## Small facts -/

@[simp] theorem canonical_integer (i : Int64) : (integer i).canonical = integer i := rfl

end Number

end LuaGraph
