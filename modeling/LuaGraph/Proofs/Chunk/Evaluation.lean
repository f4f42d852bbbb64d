import LuaGraph.Chunk.Run
import LuaGraph.Proofs.Binary64.Bits
import LuaGraph.Proofs.Chunk.Tree

/-!
# Evaluating literals

The tree of a number is evaluated (`eval`) to that number, whichever way it is spelled: integers and
finite numbers by their magnitude and sign, the least integer, the infinities and NaN by
computation.

Result: `eval_spelling`.
-/

namespace LuaGraph.Chunk

open Binary64

namespace Run

variable {α β : Type} {m m' : Machine}

/-- A run of two parts is a run of the first and then of the second. -/
theorem run_bind {p : Run α} {f : α → Run β} {a : α} (h : p m = .ok a m') :
    (p >>= f) m = f a m' := by
  show EStateM.bind p f m = f a m'
  rw [EStateM.bind, h]

theorem run_number (role : Role) (n : Number) (m : Machine) :
    number role (.number n) m = .ok n m := rfl

end Run

open Run

variable (m : Machine)

theorem eval_constant (c : Constant) : c.expr.eval m = .ok (match c with
    | .integer i => .number (.integer i)
    | .float x => .number (.float x)
    | .string s => .string s) m := by
  cases c <;> (unfold Constant.expr Expr.eval; rfl)

theorem eval_natural (n : Nat) : (naturalConstant n).expr.eval m = .ok (.index n) m :=
  eval_constant m (naturalConstant n)

theorem eval_negate {e : Expr} {v w : Value} (h : e.eval m = .ok v m)
    (hn : Run.negate v m = .ok w m) : (Expr.negate e).eval m = .ok w m := by
  unfold Expr.eval
  rw [run_bind h]
  exact hn

theorem eval_binary {l r : Expr} {a b : Number} (op : Operator) (hl : l.eval m = .ok (.number a) m)
    (hr : r.eval m = .ok (.number b) m) :
    (Expr.binary op l r).eval m = .ok (.number (arithmetic op a b)) m := by
  unfold Expr.eval
  rw [run_bind hl, run_bind (run_number .operand a m), run_bind hr,
    run_bind (run_number .operand b m)]
  rfl

/-- An integer after an optional minus sign. -/
theorem eval_signed (neg : Bool) (n : Nat) : (signedExpr neg (naturalConstant n).expr).eval m =
    .ok (.number (.integer (if neg then -Int64.ofNat n else Int64.ofNat n))) m := by
  cases neg with
  | false => exact eval_natural m n
  | true => exact eval_negate m (eval_natural m n) rfl

/-- The quotient by zero of a natural number after an optional minus sign. -/
def quotient (neg : Bool) (n : Nat) : Float :=
  (Number.integer (if neg then -Int64.ofNat n else Int64.ofNat n)).toFloat /
    (Number.integer (Int64.ofNat 0)).toFloat

theorem arithmetic_div (a b : Number) : arithmetic .div a b = .float (a.toFloat / b.toFloat) := by
  cases a <;> cases b <;> rfl

theorem eval_quotient (neg : Bool) (n : Nat) :
    (Expr.binary .div (signedExpr neg (naturalConstant n).expr) (naturalConstant 0).expr).eval m =
      .ok (.number (.float (quotient neg n))) m := by
  have hzero : (naturalConstant 0).expr.eval m = .ok (.number (.integer (Int64.ofNat 0))) m :=
    eval_natural m 0
  rw [eval_binary m .div (eval_signed m neg n) hzero, arithmetic_div]
  rfl

theorem isNaN_quotient : isNaN (quotient false 0) = true := by decide +kernel

theorem quotient_eq_infinity (neg : Bool) : quotient neg 1 = ofMagnitude neg infinity := by
  revert neg
  decide +kernel

theorem ofNat_natAbs {i : Int64} (h : i.toInt ≠ -2 ^ 63) :
    (if decide (i.toInt < 0) then -Int64.ofNat i.toInt.natAbs else Int64.ofNat i.toInt.natAbs) =
      i := by
  have hle := i.le_toInt
  have hlt := i.toInt_lt
  apply Int64.toInt_inj.1
  split
  · rename_i hneg
    have hneg : i.toInt < 0 := by simpa using hneg
    rw [Int64.toInt_neg, Int64.toInt_ofNat_of_lt (by omega),
      Int.bmod_eq_of_le (by omega) (by omega)]
    omega
  · rename_i hneg
    have hneg : ¬i.toInt < 0 := by simpa using hneg
    rw [Int64.toInt_ofNat_of_lt (by omega)]
    omega

/-- **The tree of a number is evaluated to it.** -/
theorem eval_spelling (n : Number) : n.spelling.expr.eval m = .ok (.number n) m := by
  cases n with
  | integer i =>
    unfold Number.spelling
    dsimp only
    split
    · rename_i hmin
      obtain rfl : i = Int64.minValue := Int64.toInt_inj.1 (by rw [hmin]; rfl)
      exact eval_binary m .sub (eval_signed m true _) (eval_natural m 1)
    · rename_i hmin
      show (signedExpr _ (naturalConstant _).expr).eval m = _
      rw [eval_signed, ofNat_natAbs hmin]
  | float x =>
    unfold Number.spelling
    dsimp only
    split
    · rename_i hnan
      show (Expr.binary .div (signedExpr false (naturalConstant 0).expr)
        (naturalConstant 0).expr).eval m = _
      rw [eval_quotient, eq_of_isNaN isNaN_quotient hnan]
    · rename_i hnan
      have hnan : isNaN x = false := by simpa using hnan
      split
      · rename_i hinf
        have hx := ofMagnitude_magnitude hnan
        rw [eq_of_beq hinf] at hx
        show (Expr.binary .div (signedExpr (negative x) (naturalConstant 1).expr)
          (naturalConstant 0).expr).eval m = _
        rw [eval_quotient, quotient_eq_infinity, hx]
      · have hle : magnitude x ≤ infinity := by
          simpa [isNaN] using hnan
        have hx := ofMagnitude_magnitude hnan
        show (signedExpr (negative x) (Constant.float _).expr).eval m = _
        cases hneg : negative x with
        | false =>
          rw [hneg] at hx
          rw [← hx, magnitude_ofMagnitude false hle]
          exact eval_constant m (.float _)
        | true =>
          rw [hneg] at hx
          refine eval_negate m (eval_constant m (.float _)) ?_
          show EStateM.Result.ok (Value.number (.float (-ofMagnitude false (magnitude x)))) m = _
          rw [neg_ofMagnitude false hle, Bool.not_false, hx]

end LuaGraph.Chunk
