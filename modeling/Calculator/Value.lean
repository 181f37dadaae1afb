/-!
# Values

The integers a program computes with: those that fit in 64 bits with a sign. Arithmetic is
done on exact integers, and `Value.ofInt?` brings a result back or refuses it. So a value never
needs a rule for overflow of its own.
-/

namespace Calculator

/-- Whether an integer lies between `-2 ^ 63` and `2 ^ 63 - 1`. -/
def fits : Int → Bool
  | .ofNat n => Nat.blt n 9223372036854775808
  | .negSucc n => Nat.blt n 9223372036854775808

theorem fits_iff {n : Int} :
    fits n = true ↔ -9223372036854775808 ≤ n ∧ n < 9223372036854775808 := by
  cases n with
  | ofNat n => simp only [fits, Nat.blt_eq, Int.ofNat_eq_natCast]; omega
  | negSucc n => simp only [fits, Nat.blt_eq]; omega

/-- An integer that fits in 64 bits. -/
structure Value where
  toInt : Int
  fits_toInt : fits toInt = true
deriving DecidableEq

namespace Value

@[ext] theorem ext {v w : Value} (h : v.toInt = w.toInt) : v = w := by
  cases v; cases w; cases h; rfl

theorem min_le (v : Value) : -9223372036854775808 ≤ v.toInt := (fits_iff.1 v.fits_toInt).1

theorem lt_bound (v : Value) : v.toInt < 9223372036854775808 := (fits_iff.1 v.fits_toInt).2

/-- The value of an exact integer, if it fits. -/
def ofInt? (n : Int) : Option Value :=
  if h : fits n = true then some ⟨n, h⟩ else none

theorem ofInt?_eq_some_iff {n : Int} {v : Value} : ofInt? n = some v ↔ v.toInt = n := by
  unfold ofInt?
  split
  · constructor
    · intro h; cases h; rfl
    · intro h; exact congrArg some (ext h.symm)
  · next hn =>
    constructor
    · intro h; cases h
    · intro h; exact absurd (h ▸ v.fits_toInt) hn

theorem ofInt?_eq_none_iff {n : Int} :
    ofInt? n = none ↔ n < -9223372036854775808 ∨ 9223372036854775808 ≤ n := by
  have := @fits_iff n
  unfold ofInt?
  split <;> simp only [reduceCtorEq, true_iff, false_iff] <;> grind

@[simp] theorem ofInt?_toInt (v : Value) : ofInt? v.toInt = some v :=
  ofInt?_eq_some_iff.2 rfl

/-- Decimal digits, after a `-` if the value is negative. -/
def text (v : Value) : String := toString v.toInt

end Value

end Calculator
