import LuaGraph.Chunk.Token
import Std.Data.TreeSet

/-!
# Constants

The constants of a function: the numbers and strings that its code mentions, each counted once. An
integer and a float are different constants even if they are equal.

Constants are kept in a tree that is ordered by kind and content. Result: the order tells any two
constants apart (`order_eq_iff`), so a constant is in the set exactly if it was inserted.

`Constants` is the set in a `FuncState`.
-/

namespace LuaGraph.Chunk

/-- A constant of a function. -/
inductive Constant
  | integer (i : Int64)
  | float (x : Float)
  | string (s : String)
deriving DecidableEq

namespace Constant

/-- The place of a kind of constant. -/
def rank : Constant → Nat
  | integer _ => 0
  | float _ => 1
  | string _ => 2

/-- The content of a number, zero for a string. -/
def bits : Constant → Int
  | integer i => i.toInt
  | float x => x.toBits.toNat
  | string _ => 0

/-- The content of a string, empty for a number. -/
def letters : Constant → String
  | string s => s
  | _ => ""

/-- The order of two constants. -/
def order : Constant → Constant → Ordering :=
  compareLex (compareOn rank) (compareLex (compareOn bits) (compareOn letters))

instance : Std.TransCmp order :=
  inferInstanceAs (Std.TransCmp (compareLex _ _))

/-- Constants of one kind with the same content are the same. -/
theorem eq_of_content {a b : Constant} (hr : a.rank = b.rank) (hb : a.bits = b.bits)
    (hl : a.letters = b.letters) : a = b := by
  cases a <;> cases b <;> simp only [rank, reduceCtorEq, Nat.reduceEqDiff] at hr
  · rw [Int64.toInt_inj.1 hb]
  · rw [Binary64.eq_of_toBits (UInt64.toNat_inj.1 (Int.ofNat.inj hb))]
  · exact congrArg string hl

/-- The order tells any two constants apart. -/
theorem order_eq_iff {a b : Constant} : order a b = .eq ↔ a = b := by
  constructor
  · intro h
    simp only [order, compareLex, compareOn, Ordering.then_eq_eq, Std.compare_eq_iff_eq] at h
    obtain ⟨hr, hb, hl⟩ := h
    exact eq_of_content hr hb hl
  · rintro rfl
    exact Std.ReflCmp.compare_self

end Constant

/-- A set of constants. -/
abbrev Constants := Std.TreeSet Constant Constant.order

theorem Constants.mem_insert {s : Constants} {a b : Constant} :
    a ∈ s.insert b ↔ b = a ∨ a ∈ s := by
  rw [Std.TreeSet.mem_insert, Constant.order_eq_iff]

end LuaGraph.Chunk
