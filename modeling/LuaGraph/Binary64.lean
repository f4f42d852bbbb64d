/-!
# Binary64 numbers as exact integers

A `Float` is read through its bit pattern. Conventions:

* The *magnitude* of a number is its bit pattern without the sign bit. Magnitudes are ordered as
  the absolute values they stand for; `infinity` is the first one that is not finite and every
  larger one is NaN.
* A finite magnitude stands for `units m` times the least positive number `1 / scale`. Every
  finite absolute value is therefore a natural number of units, and no rounding is hidden in the
  reading.
* `nearest` is the one rounding of the library: a quotient of naturals to the magnitude closest to
  it, the even one of two equally close.

`compare?` is `partial_cmp`, `equal` and `below` are `==` and `<`, and `ofInt` is the conversion of
an integer.

Out of scope: which of the many patterns NaN has. Nothing tells them apart.

Results: a float is its bit pattern (`eq_of_toBits`), and rounding keeps integers
(`roundHalfEven_mul`).
-/

-- Powers of naturals and integers are the built-in ones, also where a monoid has others.
attribute [instance (2000), default_instance (20000)] instPowNat

namespace LuaGraph.Binary64

/-! ## Bit patterns -/

/-- The place of the sign bit. -/
def signBit : Nat := 2 ^ 63

/-- The number of magnitudes in one binade. -/
def binade : Nat := 2 ^ 52

/-- The magnitude of infinity. -/
def infinity : Nat := 0x7ff * binade

/-- The number of units in one. -/
def scale : Nat := 2 ^ 1074

/-- The bit pattern without its sign. -/
def magnitude (x : Float) : Nat := x.toBits.toNat % signBit

/-- The sign bit is set. -/
def negative (x : Float) : Bool := decide (signBit ≤ x.toBits.toNat)

/-- The number with the given sign bit and magnitude. -/
def ofMagnitude (neg : Bool) (m : Nat) : Float :=
  Float.ofBits (UInt64.ofNat (if neg then signBit + m else m))

/-- A pattern past infinity. -/
def isNaN (x : Float) : Bool := decide (infinity < magnitude x)

/-- Either infinity. -/
def isInfinite (x : Float) : Bool := magnitude x == infinity

/-! ## Exact values -/

/-- The absolute value that a finite magnitude stands for, in units. The first two binades share
one spacing. -/
def units (m : Nat) : Nat :=
  if m < binade then m else (binade + m % binade) * 2 ^ (m / binade - 1)

/-- The integer that the number is equal to, if it is one. -/
def toInt? (x : Float) : Option Int :=
  let m := magnitude x
  if infinity ≤ m then none
  else if units m % scale = 0 then
    let n : Int := (units m / scale : Nat)
    some (if negative x then -n else n)
  else none

/-! ## Order -/

/-- The place of a number on the line: its magnitude with its sign. Both zeros share a place. -/
def place (x : Float) : Int :=
  if negative x then -(magnitude x : Int) else (magnitude x : Int)

/-- The order of two numbers; NaN has none. -/
def compare? (x y : Float) : Option Ordering :=
  if isNaN x || isNaN y then none else some (compare (place x) (place y))

/-- The numbers are equal. NaN equals nothing. -/
def equal (x y : Float) : Bool := compare? x y == some .eq

/-- The first number is below the second. -/
def below (x y : Float) : Bool := compare? x y == some .lt

/-- The first number is at most the second. -/
def atMost (x y : Float) : Bool := (compare? x y).any (·.isLE)

/-! ## Rounding -/

/-- The integer closest to `num / den`, the even one of two equally close. -/
def roundHalfEven (num den : Nat) : Nat :=
  let q := num / den
  let r := num % den
  if 2 * r < den ∨ (2 * r = den ∧ q % 2 = 0) then q else q + 1

/-- **The magnitude closest to `num / den`**, the even one of two equally close, and infinity from
half a step past the largest finite one. The spacing is that of the binade the quotient lies in;
a quotient that rounds up to the end of its binade gets the first magnitude of the next. -/
def nearest (num den : Nat) : Nat :=
  let shift := (num * scale / den).log2 - 52
  min infinity (shift * binade + roundHalfEven (num * scale) (den * 2 ^ shift))

/-- The number closest to an integer. -/
def ofInt (n : Int) : Float := ofMagnitude (decide (n < 0)) (nearest n.natAbs 1)

/-- The number that a narrower one stands for. Its magnitudes have 23 bits below the exponent and
its least positive number is `2 ^ -149`. -/
def ofFloat32 (x : Float32) : Float :=
  let bits := x.toBits.toNat
  let neg := decide (2 ^ 31 ≤ bits)
  let m := bits % 2 ^ 31
  let top := 0xff * 2 ^ 23
  if top < m then ofMagnitude false (infinity + 1)
  else if m = top then ofMagnitude neg infinity
  else
    let u := if m < 2 ^ 23 then m else (2 ^ 23 + m % 2 ^ 23) * 2 ^ (m / 2 ^ 23 - 1)
    ofMagnitude neg (nearest u (2 ^ 149))

/-! ## Small facts -/

/-- A float is its bit pattern. -/
theorem eq_of_toBits {x y : Float} (h : x.toBits = y.toBits) : x = y := by
  cases x with | ofModel x => cases y with | ofModel y =>
  cases x with | mk a ha => cases y with | mk b hb =>
  obtain rfl : a = b := h
  rfl

theorem roundHalfEven_mul {den : Nat} (h : 0 < den) (q : Nat) :
    roundHalfEven (q * den) den = q := by
  simp [roundHalfEven, Nat.mul_div_cancel _ h, h]

theorem nearest_le_infinity (num den : Nat) : nearest num den ≤ infinity :=
  Nat.min_le_left _ _

end LuaGraph.Binary64
