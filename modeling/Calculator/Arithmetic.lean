import Calculator.Error

/-!
# Exact arithmetic

Every operation is computed on exact integers, and its result has to fit in a value again;
division truncates toward zero, and a negative power is the truncated reciprocal. A power is
only computed where it can fit: with a base beyond `±1` and an exponent of 64 or more it
cannot, so no exponent makes the computation long.
-/

namespace Calculator

/-- The value of an exact result, or the overflow of the operator that gave it. -/
def Operator.checked (op : Operator) (n : Int) : Except RuntimeError Value :=
  match Value.ofInt? n with
  | some v => .ok v
  | none => .error (.overflow op)

/-- The power `b ^ n` where `b` is `-1`, `0` or `1` and `n` is positive: only the parity of `n`
counts. -/
def unitPower (b : Int) (n : Nat) : Int := if n % 2 = 0 then b * b else b

namespace Value

/-- The base `b` to the power of `n`. -/
def powNat (b : Value) (n : Nat) : Except RuntimeError Value :=
  if n < 64 then Operator.pow.checked (b.toInt.pow n)
  else if b.toInt.natAbs ≤ 1 then Operator.pow.checked (unitPower b.toInt n)
  else .error (.overflow .pow)

/-- One over `b` to the power of `n`, for a positive `n`. Zero has no reciprocal, `1` and `-1`
are their own, and any other reciprocal truncates to zero. -/
def reciprocalPow (b : Value) (n : Nat) : Except RuntimeError Value :=
  if b.toInt = 0 then .error .divisionByZero
  else if b.toInt.natAbs = 1 then Operator.pow.checked (unitPower b.toInt n)
  else Operator.pow.checked 0

def pow (b e : Value) : Except RuntimeError Value :=
  if 0 ≤ e.toInt then b.powNat e.toInt.toNat else b.reciprocalPow e.toInt.natAbs

def div (v w : Value) : Except RuntimeError Value :=
  if w.toInt = 0 then .error .divisionByZero
  else Operator.div.checked (v.toInt.tdiv w.toInt)

/-- The distance from zero. The least value has none that fits. -/
def abs (v : Value) : Except RuntimeError Value :=
  match ofInt? v.toInt.natAbs with
  | some w => .ok w
  | none => .error .absOverflow

end Value

def Operator.apply : Operator → Value → Value → Except RuntimeError Value
  | .add, v, w => Operator.add.checked (v.toInt + w.toInt)
  | .sub, v, w => Operator.sub.checked (v.toInt - w.toInt)
  | .mul, v, w => Operator.mul.checked (v.toInt * w.toInt)
  | .div, v, w => v.div w
  | .pow, v, w => v.pow w

end Calculator
