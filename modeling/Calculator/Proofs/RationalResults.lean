import Calculator.Proofs.ExactArithmetic
import Mathlib.Data.Rat.Floor

/-!
# Operators and rational arithmetic

What the operators mean without any limit: the operations on rational numbers, and then the fraction
of the result is cut off. A power may have any exponent, so a negative one gives a fraction, or
nothing at all if the base is zero.

**Theorem (`Operator.result?_eq`).** Truncating division and the power with its case for negative
exponents, as they are written for integers, are these operations.

**Theorem (`apply_agrees_with_rationals`).** Applying an operator to values gives the truncated
rational result if that fits in 64 bits, for exponents of any size.
-/

namespace Calculator

/-! ## Truncation -/

/-- The integer next to a rational number on the side of zero. -/
def truncate (q : ℚ) : ℤ := if 0 ≤ q then ⌊q⌋ else ⌈q⌉

theorem truncate_intCast (n : ℤ) : truncate n = n := by
  unfold truncate
  split_ifs <;> simp

/-- With a positive divisor the sign of a quotient is that of its dividend. -/
theorem truncate_div_natCast (m : ℤ) {d : ℕ} (hd : 0 < d) :
    truncate ((m : ℚ) / d) = m.tdiv d := by
  have hd' : (0 : ℚ) < d := Nat.cast_pos.2 hd
  unfold truncate
  by_cases hm : 0 ≤ m
  · have hq : 0 ≤ (m : ℚ) / d := div_nonneg (Int.cast_nonneg hm) hd'.le
    rw [if_pos hq, Rat.floor_intCast_div_natCast, Int.tdiv_eq_ediv_of_nonneg hm]
  · have hq : ¬0 ≤ (m : ℚ) / d := by
      rw [not_le]
      exact div_neg_of_neg_of_pos (Int.cast_lt_zero.2 (not_le.1 hm)) hd'
    have hneg : 0 ≤ -m := by omega
    rw [if_neg hq, Rat.ceil_intCast_div_natCast, ← Int.tdiv_eq_ediv_of_nonneg hneg, Int.neg_tdiv,
      neg_neg]

/-- **Division of integers is division of rational numbers, truncated.** -/
theorem truncate_div (m : ℤ) {n : ℤ} (hn : n ≠ 0) : truncate ((m : ℚ) / n) = m.tdiv n := by
  obtain ⟨d, rfl | rfl⟩ := n.eq_nat_or_neg
  · rw [Int.cast_natCast]
    exact truncate_div_natCast m (by omega)
  · -- Both signs are changed, and that changes neither quotient.
    have hflip : (m : ℚ) / ((-(d : ℤ) : ℤ) : ℚ) = ((-m : ℤ) : ℚ) / d := by
      push_cast
      rw [div_neg, neg_div]
    rw [hflip, truncate_div_natCast _ (by omega), Int.neg_tdiv, Int.tdiv_neg]

/-! ## Results without a limit -/

namespace Operator

/-- The result in rational numbers. There is none where a divisor is zero. -/
def rational? (op : Operator) (m n : ℤ) : Option ℚ :=
  match op with
  | .add => some (m + n)
  | .sub => some (m - n)
  | .mul => some (m * n)
  | .div => if n = 0 then none else some (m / n)
  | .pow => if m = 0 ∧ n < 0 then none else some ((m : ℚ) ^ n)

/-- The result in integers. -/
def result? (op : Operator) (m n : ℤ) : Option ℤ := (op.rational? m n).map truncate

theorem divisor?_eq_zero_iff {op : Operator} {m n : ℤ} : op.divisor? m n = some 0 ↔
    op = .div ∧ n = 0 ∨ op = .pow ∧ m = 0 ∧ n < 0 := by
  cases op with
  | pow =>
    by_cases hn : 0 ≤ n
    · simp [divisor?, hn]
    · have hneg : n < 0 := not_le.1 hn
      simp [divisor?, hn, hneg, hneg.ne]
  | _ => simp [divisor?]

/-- A power with a negative exponent is one over a power. -/
theorem truncate_zpow {m n : ℤ} (h : ¬(m = 0 ∧ n < 0)) :
    truncate ((m : ℚ) ^ n) = Operator.pow.exact m n := by
  by_cases hn : 0 ≤ n
  · have hpow : (m : ℚ) ^ n = ((m.pow n.toNat : ℤ) : ℚ) := by
      conv_lhs => rw [← Int.toNat_of_nonneg hn]
      rw [zpow_natCast, ← Int.cast_pow]
      rfl
    rw [hpow, truncate_intCast, Operator.exact, if_pos hn]
  · have hm : m ≠ 0 := by
      intro hm
      exact h ⟨hm, not_le.1 hn⟩
    have hpow : (m : ℚ) ^ n = ((1 : ℤ) : ℚ) / ((m.pow n.natAbs : ℤ) : ℚ) := by
      have habs : n = -(n.natAbs : ℤ) := by omega
      conv_lhs => rw [habs]
      rw [zpow_neg, zpow_natCast, ← Int.cast_pow, Int.cast_one, one_div]
      rfl
    have hne : m.pow n.natAbs ≠ 0 := (int_pow_eq_zero_iff (by omega)).not.2 hm
    rw [hpow, truncate_div 1 hne, Operator.exact, if_neg hn]

/-- **The integer result is the exact one**, where no divisor is zero. -/
theorem result?_eq (op : Operator) (m n : ℤ) :
    op.result? m n = if op.divisor? m n = some 0 then none else some (op.exact m n) := by
  simp only [divisor?_eq_zero_iff]
  cases op with
  | add => exact congrArg some (by exact_mod_cast truncate_intCast (m + n))
  | sub => exact congrArg some (by exact_mod_cast truncate_intCast (m - n))
  | mul => exact congrArg some (by exact_mod_cast truncate_intCast (m * n))
  | div =>
    by_cases hn : n = 0
    · simp [result?, rational?, hn]
    · simp [result?, rational?, hn, truncate_div m hn, Operator.exact]
  | pow =>
    by_cases h : m = 0 ∧ n < 0
    · simp [result?, rational?, h]
    · simp [result?, rational?, h, truncate_zpow h]

/-- A result agrees with rational arithmetic: it is a value exactly if there is a result in integers
that fits in 64 bits, and then it is that one. -/
structure Agrees (op : Operator) (m n : ℤ) (result : Except RuntimeError Value) : Prop where
  ok : ∀ z, (∃ v, result = .ok v ∧ v.toInt = z) ↔
    op.result? m n = some z ∧ -2 ^ 63 ≤ z ∧ z < 2 ^ 63
  divisionByZero : result = .error .divisionByZero ↔
    op = .div ∧ n = 0 ∨ op = .pow ∧ m = 0 ∧ n < 0
  overflow : ∀ o, result = .error (.overflow o) ↔
    o = op ∧ ∃ z, op.result? m n = some z ∧ (z < -2 ^ 63 ∨ 2 ^ 63 ≤ z)

/-- **What is computed up to its fault agrees with rational arithmetic.** -/
theorem agrees_of_computes {op : Operator} {m n : ℤ} {result : Except RuntimeError Value}
    (h : Computes result [.binary op m n] fun v => v.toInt = op.exact m n) :
    op.Agrees m n result := by
  have herror (e : RuntimeError) :
      result = .error e ↔ (Operation.binary op m n).fault = some e := by
    rw [h.eq_error_iff, List.findSome?_singleton]
  have hresult := op.result?_eq m n
  by_cases hd : op.divisor? m n = some 0
  · -- There is no result, and the fault is known.
    have hfault : (Operation.binary op m n).fault = some .divisionByZero := if_pos hd
    have hzero : result = .error .divisionByZero := (herror _).2 hfault
    rw [if_pos hd] at hresult
    refine ⟨fun z => ?_, ?_, fun o => ?_⟩
    · simp [hzero, hresult]
    · simp [hzero, ← divisor?_eq_zero_iff, hd]
    · simp [hzero, hresult]
  rw [if_neg hd] at hresult
  by_cases hf : fits (op.exact m n) = true
  · have hfault : (Operation.binary op m n).fault = none := (if_neg hd).trans (if_pos hf)
    obtain ⟨v, hok, hv⟩ := h.exists_ok (List.forall_mem_singleton.2 hfault)
    have hrange := fits_iff.1 hf
    refine ⟨fun z => ?_, ?_, fun o => ?_⟩
    · simp only [hok, hresult, ← hv, Except.ok.injEq, Option.some.injEq, exists_eq_left']
      grind
    · simp [hok, ← divisor?_eq_zero_iff, hd]
    · simp only [hok, hresult, Option.some.injEq, reduceCtorEq, false_iff]
      grind
  · have hfault : (Operation.binary op m n).fault = some (.overflow op) :=
      (if_neg hd).trans (if_neg hf)
    have hoverflow : result = .error (.overflow op) := (herror _).2 hfault
    rw [fits_iff] at hf
    refine ⟨fun z => ?_, ?_, fun o => ?_⟩
    · simp only [hoverflow, hresult, Option.some.injEq, reduceCtorEq, false_and, exists_false,
        false_iff]
      grind
    · simp [hoverflow, ← divisor?_eq_zero_iff, hd]
    · simp only [hoverflow, hresult, Except.error.injEq, RuntimeError.overflow.injEq,
        Option.some.injEq, exists_eq_left']
      grind

end Operator

/-- **Every operator is exact.** For all values `l` and `r`, applying an operator to them gives what
rational arithmetic gives once its fraction is cut off, if that lies between `-2 ^ 63` and
`2 ^ 63 - 1`; the zeroth power is `1` for every base. It is a division by zero exactly for a zero
divisor and for a negative power of zero, and an overflow, of this very operator, exactly if the
result is out of range. The power alone does the same as the operator `^`. -/
theorem apply_agrees_with_rationals (op : Operator) (l r : Value) :
    op.Agrees l.toInt r.toInt (op.apply l r) ∧ Operator.pow.Agrees l.toInt r.toInt (l.pow r) :=
  ⟨Operator.agrees_of_computes (computes_apply op l r),
    Operator.agrees_of_computes (computes_pow l r)⟩

-- The least value is a power of `-2`, and an exponent beyond 32 bits changes only the sign of `-1`.
example : Operator.pow.apply ⟨-2, rfl⟩ ⟨63, rfl⟩ = .ok ⟨-9223372036854775808, rfl⟩ := by decide

example : Operator.pow.apply ⟨-1, rfl⟩ ⟨-9223372036854775808, rfl⟩ = .ok ⟨1, rfl⟩ := by decide

end Calculator
