import Calculator.Arithmetic

/-!
# Operations on exact integers

What an operation gives when nothing bounds its result, and what is wrong with it when the result
has to fit in a value. Division truncates toward zero, and a power with a negative exponent is one
over the power with the opposite exponent, truncated.

**Theorem (`computes_apply`).** Applying an operator to two values gives the exact result if there
is one that fits, and otherwise the fault of the operation: a divisor that is zero, or the overflow
of this operator. The shortcuts for large exponents make no difference.
-/

namespace Calculator

/-- The exact result of an operator. -/
def Operator.exact : Operator → Int → Int → Int
  | .add, m, n => m + n
  | .sub, m, n => m - n
  | .mul, m, n => m * n
  | .div, m, n => m.tdiv n
  | .pow, m, n => if 0 ≤ n then m.pow n.toNat else Int.tdiv 1 (m.pow n.natAbs)

/-- What an operator divides by, if it divides. -/
def Operator.divisor? : Operator → Int → Int → Option Int
  | .div, _, n => some n
  | .pow, m, n => if 0 ≤ n then none else some (m.pow n.natAbs)
  | _, _, _ => none

/-- An operation with the integers it is applied to. -/
inductive Operation where
  | binary (op : Operator) (left right : Int)
  | abs (n : Int)

namespace Operation

def exact : Operation → Int
  | .binary op m n => op.exact m n
  | .abs n => n.natAbs

def divisor? : Operation → Option Int
  | .binary op m n => op.divisor? m n
  | .abs _ => none

/-- The error of a result that does not fit. -/
def overflow : Operation → RuntimeError
  | .binary op _ _ => .overflow op
  | .abs _ => .absOverflow

/-- What is wrong with an operation on values. -/
def fault (o : Operation) : Option RuntimeError :=
  if o.divisor? = some 0 then some .divisionByZero
  else if fits o.exact then none
  else some o.overflow

theorem fault_eq_none_iff {o : Operation} : o.fault = none ↔
    o.divisor? ≠ some 0 ∧ -9223372036854775808 ≤ o.exact ∧ o.exact < 9223372036854775808 := by
  rw [← fits_iff]
  unfold fault
  split
  · next hd => simp [hd]
  · next hd => split <;> simp_all

end Operation

/-- The result of some operations on values: the first fault among them or, if there is none,
something with a given property. -/
def Computes {α : Type} (result : Except RuntimeError α) (os : List Operation) (P : α → Prop) :
    Prop :=
  match os.findSome? Operation.fault with
  | some e => result = .error e
  | none => ∃ a, result = .ok a ∧ P a

theorem computes_ok {α : Type} {P : α → Prop} {a : α} (h : P a) : Computes (.ok a) [] P :=
  ⟨a, rfl, h⟩

section Computes

variable {α : Type} {result : Except RuntimeError α} {os : List Operation} {P : α → Prop}

theorem Computes.of_ok (h : Computes result os P) {a : α} (ha : result = .ok a) :
    (∀ o ∈ os, o.fault = none) ∧ P a := by
  rw [← List.findSome?_eq_none_iff]
  unfold Computes at h
  split at h
  · rw [h] at ha
    cases ha
  · next ho =>
    obtain ⟨b, hb, hP⟩ := h
    rw [hb] at ha
    cases ha
    exact ⟨ho, hP⟩

theorem Computes.exists_ok (h : Computes result os P) (ho : ∀ o ∈ os, o.fault = none) :
    ∃ a, result = .ok a ∧ P a := by
  rw [← List.findSome?_eq_none_iff] at ho
  rw [Computes, ho] at h
  exact h

theorem Computes.eq_error_iff (h : Computes result os P) {e : RuntimeError} :
    result = .error e ↔ os.findSome? Operation.fault = some e := by
  unfold Computes at h
  split at h
  · next ho => simp [h, ho]
  · next ho =>
    obtain ⟨a, ha, -⟩ := h
    simp [ha, ho]

end Computes

/-- What depends on a result does not take place if there is none. -/
theorem Computes.bind {α β : Type} {result : Except RuntimeError α} {P : α → Prop} {Q : β → Prop}
    {f : α → Except RuntimeError β} {os os' : List Operation} (h : Computes result os P)
    (hf : ∀ a, P a → Computes (f a) os' Q) : Computes (result >>= f) (os ++ os') Q := by
  unfold Computes at h ⊢
  rw [List.findSome?_append]
  cases ho : os.findSome? Operation.fault with
  | some e =>
    rw [ho] at h
    rw [h]
    rfl
  | none =>
    rw [ho] at h
    obtain ⟨a, rfl, ha⟩ := h
    exact hf a ha

/-- One operation, known by its two ways to fail. -/
theorem computes_operation {result : Except RuntimeError Value} (o : Operation)
    (hzero : o.divisor? = some 0 → result = .error .divisionByZero)
    (hexact : o.divisor? ≠ some 0 → result =
      match Value.ofInt? o.exact with
      | some v => .ok v
      | none => .error o.overflow) :
    Computes result [o] fun v => v.toInt = o.exact := by
  unfold Computes
  rw [List.findSome?_singleton, Operation.fault]
  by_cases hd : o.divisor? = some 0
  · rw [if_pos hd]
    exact hzero hd
  · rw [if_neg hd, hexact hd]
    cases hv : Value.ofInt? o.exact with
    | some v =>
      have hn : v.toInt = o.exact := Value.ofInt?_eq_some_iff.1 hv
      rw [if_pos (hn ▸ v.fits_toInt)]
      exact ⟨v, rfl, hn⟩
    | none =>
      have hn : ¬fits o.exact = true := by
        rw [Value.ofInt?_eq_none_iff] at hv
        rw [fits_iff]
        omega
      rw [if_neg hn]

/-! ## Powers -/

theorem natAbs_int_pow (b : Int) (n : Nat) : (b.pow n).natAbs = Nat.pow b.natAbs n :=
  Int.natAbs_pow b n

/-- A base beyond `±1` grows with every factor. -/
theorem two_pow_le_natAbs_pow {b : Int} (hb : 2 ≤ b.natAbs) {m n : Nat} (h : m ≤ n) :
    Nat.pow 2 m ≤ (b.pow n).natAbs := by
  rw [natAbs_int_pow]
  calc
    Nat.pow 2 m ≤ Nat.pow 2 n := Nat.pow_le_pow_right (by decide) h
    _ ≤ Nat.pow b.natAbs n := Nat.pow_le_pow_left hb n

theorem pow_neg_one (n : Nat) : Int.pow (-1) n = if n % 2 = 0 then 1 else -1 := by
  induction n with
  | zero => rfl
  | succ n ih =>
    have hsucc : Int.pow (-1) (n + 1) = Int.pow (-1) n * -1 := Int.pow_succ (-1) n
    rw [hsucc, ih]
    by_cases hn : n % 2 = 0
    · rw [if_pos hn, if_neg (by omega)]
      rfl
    · rw [if_neg hn, if_pos (by omega)]
      rfl

theorem unitPower_eq {b : Int} (hb : b.natAbs ≤ 1) {n : Nat} (hn : 0 < n) :
    unitPower b n = b.pow n := by
  have hcases : b = 0 ∨ b = 1 ∨ b = -1 := by omega
  unfold unitPower
  rcases hcases with rfl | rfl | rfl
  · have hzero : Int.pow 0 n = 0 := Int.zero_pow (Nat.ne_of_gt hn)
    rw [hzero]
    split <;> rfl
  · have hone : Int.pow 1 n = 1 := Int.one_pow
    rw [hone]
    split <;> rfl
  · rw [pow_neg_one]
    rfl

namespace Value

/-- A power is computed as if there were no limit on its exponent. -/
theorem powNat_eq (b : Value) (n : Nat) : b.powNat n = Operator.pow.checked (b.toInt.pow n) := by
  unfold powNat
  split
  · rfl
  · next hn =>
    split
    · next hb => rw [unitPower_eq hb (by omega)]
    · next hb =>
      have hlarge : Nat.pow 2 64 ≤ (b.toInt.pow n).natAbs :=
        two_pow_le_natAbs_pow (by omega) (by omega)
      have hnone : ofInt? (b.toInt.pow n) = none := by
        rw [ofInt?_eq_none_iff]
        change 18446744073709551616 ≤ _ at hlarge
        omega
      rw [Operator.checked, hnone]

theorem reciprocalPow_eq {b : Value} (hb : b.toInt ≠ 0) {n : Nat} (hn : 0 < n) :
    b.reciprocalPow n = Operator.pow.checked (Int.tdiv 1 (b.toInt.pow n)) := by
  rw [reciprocalPow, if_neg hb]
  split
  · next hunit =>
    -- The power is `1` or `-1`, and both are their own reciprocals.
    have hpow : (b.toInt.pow n).natAbs = 1 := by
      rw [natAbs_int_pow, hunit]
      exact Nat.one_pow n
    have hself : Int.tdiv 1 (b.toInt.pow n) = b.toInt.pow n := by
      rcases Int.natAbs_eq_iff.1 hpow with h | h <;> rw [h] <;> rfl
    rw [hself, unitPower_eq (by omega) hn]
  · next hunit =>
    have hlarge : Nat.pow 2 1 ≤ (b.toInt.pow n).natAbs := two_pow_le_natAbs_pow (by omega) hn
    have hzero : Int.tdiv 1 (b.toInt.pow n) = 0 := by
      rw [← Int.natAbs_eq_zero, Int.natAbs_tdiv]
      exact Nat.div_eq_of_lt hlarge
    rw [hzero]

end Value

/-! ## Operators -/

theorem int_pow_eq_zero_iff {b : Int} {n : Nat} (hn : 0 < n) : b.pow n = 0 ↔ b = 0 := by
  rw [← Int.natAbs_eq_zero, natAbs_int_pow, ← Int.natAbs_eq_zero]
  exact Nat.pow_eq_zero.trans (and_iff_left (Nat.ne_of_gt hn))

theorem computes_pow (b e : Value) : Computes (b.pow e) [.binary .pow b.toInt e.toInt]
    fun u => u.toInt = Operator.pow.exact b.toInt e.toInt := by
  by_cases he : 0 ≤ e.toInt
  · have hdivisor : (Operation.binary .pow b.toInt e.toInt).divisor? = none := if_pos he
    have hexact : Operator.pow.exact b.toInt e.toInt = b.toInt.pow e.toInt.toNat := if_pos he
    refine computes_operation (.binary .pow b.toInt e.toInt) (fun h => ?_) fun _ => ?_
    · rw [hdivisor] at h
      cases h
    · rw [Value.pow, if_pos he, Value.powNat_eq, ← hexact]
      rfl
  · have hpos : 0 < e.toInt.natAbs := by omega
    have hdivisor : (Operation.binary .pow b.toInt e.toInt).divisor? =
        some (b.toInt.pow e.toInt.natAbs) := if_neg he
    have hexact : Operator.pow.exact b.toInt e.toInt =
        Int.tdiv 1 (b.toInt.pow e.toInt.natAbs) := if_neg he
    refine computes_operation (.binary .pow b.toInt e.toInt) (fun h => ?_) fun h => ?_
    · rw [hdivisor, Option.some.injEq, int_pow_eq_zero_iff hpos] at h
      rw [Value.pow, if_neg he, Value.reciprocalPow, if_pos h]
    · rw [hdivisor, ne_eq, Option.some.injEq, int_pow_eq_zero_iff hpos] at h
      rw [Value.pow, if_neg he, Value.reciprocalPow_eq h hpos, ← hexact]
      rfl

/-- **Operators are exact.** -/
theorem computes_apply (op : Operator) (v w : Value) :
    Computes (op.apply v w) [.binary op v.toInt w.toInt]
      fun u => u.toInt = op.exact v.toInt w.toInt := by
  cases op with
  | add => exact computes_operation (.binary .add v.toInt w.toInt) nofun fun _ => rfl
  | sub => exact computes_operation (.binary .sub v.toInt w.toInt) nofun fun _ => rfl
  | mul => exact computes_operation (.binary .mul v.toInt w.toInt) nofun fun _ => rfl
  | div =>
    refine computes_operation (.binary .div v.toInt w.toInt) (fun h => ?_) fun h => ?_
    · injection h with h
      exact if_pos h
    · exact if_neg fun hw => h (congrArg some hw)
  | pow => exact computes_pow v w

/-- Absolute values are exact. -/
theorem computes_abs (v : Value) :
    Computes v.abs [.abs v.toInt] fun u => u.toInt = v.toInt.natAbs :=
  computes_operation (.abs v.toInt) nofun fun _ => rfl

end Calculator
