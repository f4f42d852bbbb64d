import LuaGraph.Decimal.Shortest

/-!
# Writing decimals

A `Style` holds the decisions of an output format: where positional notation is used, and whether
a whole number keeps a point and a zero. Everything else is common to the formats of this library:
no leading zeros but one before a point, an exponent without a plus sign after a bare mantissa.

The formats are those of `format_number` and of the display of a float.
-/

namespace LuaGraph.Decimal

/-- The decisions of a number format. -/
structure Style where
  /-- Positional notation is used when the leading digit stands for one of these powers of ten. -/
  positional : Int → Bool
  /-- A whole number in positional notation ends with a point and a zero. -/
  pointZero : Bool

/-- A run of zeros. -/
def zeros (n : Nat) : List Char := List.replicate n '0'

/-- The digits with a point or with zeros around them. -/
def positionalText (s : Style) (d : Decimal) : List Char :=
  let ds := digitsOf d.digits
  if 0 ≤ d.exponent then
    ds ++ zeros d.exponent.toNat ++ (if s.pointZero then ['.', '0'] else [])
  else
    let places := (-d.exponent).toNat
    if places < ds.length then
      ds.take (ds.length - places) ++ '.' :: ds.drop (ds.length - places)
    else '0' :: '.' :: zeros (places - ds.length) ++ ds

/-- One digit, the others after a point, and the power of ten of the first. -/
def scientificText (d : Decimal) : List Char :=
  let ds := digitsOf d.digits
  let power := d.exponent + (ds.length - 1 : Nat)
  ds.take 1 ++ (if ds.length = 1 then [] else '.' :: ds.drop 1) ++
    'e' :: (if power < 0 then '-' :: digitsOf power.natAbs else digitsOf power.natAbs)

/-- The text of a decimal in a style. -/
def text (s : Style) (d : Decimal) : List Char :=
  let lead := d.exponent + ((digitsOf d.digits).length - 1 : Nat)
  if s.positional lead then positionalText s d else scientificText d

/-- The text of a finite number: its sign, then its shortest decimal. -/
def finiteText (s : Style) (x : Float) : List Char :=
  let body := text s (shortest (Binary64.magnitude x))
  if Binary64.negative x then '-' :: body else body

end LuaGraph.Decimal
