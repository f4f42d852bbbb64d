import LuaGraph.Decimal.Basic

/-!
# The shortest decimal of a binary number

Among the decimals that round to a finite magnitude, `shortest` takes one with the fewest digits,
and of two such the closer one; of two equally close the larger one. The grids of one, two, …
seventeen digits are tried in turn: a grid that holds a decimal which rounds to the magnitude has
one among the two grid points next to the value. Every candidate is read back before it is taken,
and where no grid had one the exact value would be taken, so the result always reads back.

These are the digits that `format_number` and the display of a float print.
-/

namespace LuaGraph.Decimal

open Binary64

/-- The value `u` units is at least `10 ^ k`. -/
def reaches (u : Nat) (k : Int) : Bool :=
  decide (scale * 10 ^ k.toNat ≤ u * 10 ^ (-k).toNat)

/-- The power of ten of the leading digit, from an estimate by the binary logarithm that is off by
at most one. -/
def leadingPlace (u : Nat) : Int :=
  let k := ((u.log2 : Int) - 1074) * 30103 / 100000
  if reaches u (k + 1) then k + 1 else if reaches u k then k else k - 1

/-- A decimal that rounds to the magnitude. -/
def readsBack (m : Nat) (d : Decimal) : Bool := d.toMagnitude == m

/-- The closer of two decimals that both read back, else the one that does, if there is one. -/
def closer? (m : Nat) (low high : Decimal) (lowCloser : Bool) : Option Decimal :=
  if readsBack m low && (lowCloser || !readsBack m high) then some low
  else if readsBack m high then some high
  else none

/-- The grid point of spacing `10 ^ p` next to the value that reads back, if there is one. -/
def onGrid? (m : Nat) (p : Int) : Option Decimal :=
  let num := units m * 10 ^ (-p).toNat
  let den := scale * 10 ^ p.toNat
  closer? m (trim ⟨num / den, p⟩) (trim ⟨num / den + 1, p⟩) (decide (2 * (num % den) < den))

/-- The value itself: `1 / 2 ^ 1074` is `5 ^ 1074 / 10 ^ 1074`. -/
def exact (m : Nat) : Decimal := ⟨units m * 5 ^ 1074, -1074⟩

/-- **The shortest decimal that reads back** to a finite magnitude. -/
def shortest (m : Nat) : Decimal :=
  if m = 0 then ⟨0, 0⟩
  else
    let lead := leadingPlace (units m)
    ((List.range 17).findSome? fun n => onGrid? m (lead - (n : Nat))).getD (exact m)

theorem toMagnitude_of_closer? {m : Nat} {low high d : Decimal} {b : Bool}
    (h : closer? m low high b = some d) : d.toMagnitude = m := by
  unfold closer? readsBack at h
  split at h
  · simp_all
  · split at h <;> simp_all

/-- What the grids give reads back. -/
theorem toMagnitude_of_onGrid? {m : Nat} {p : Int} {d : Decimal} (h : onGrid? m p = some d) :
    d.toMagnitude = m :=
  toMagnitude_of_closer? h

end LuaGraph.Decimal
