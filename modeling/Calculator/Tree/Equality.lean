import Calculator.Tree

/-!
# Equality of trees

Trees are compared node by node, and chains link by link from the left.

**Theorem (`Factor.same_iff`).** The comparison says yes exactly when the two trees are the same
tree. So equality of trees is decidable.
-/

namespace Calculator

mutual

def Factor.same : Factor → Factor → Bool
  | .number v, .number w => v = w
  | .group e, .group e' => Expr.same e e'
  | .bars e, .bars e' => Expr.same e e'
  | .power b p, .power b' p' => Factor.same b b' && Factor.same p p'
  | _, _ => false

def Term.same : Term → Term → Bool
  | .single f, .single f' => Factor.same f f'
  | .cons f o rest, .cons f' o' rest' => Factor.same f f' && o = o' && Term.same rest rest'
  | _, _ => false

def Expr.same : Expr → Expr → Bool
  | .single t, .single t' => Term.same t t'
  | .cons t o rest, .cons t' o' rest' => Term.same t t' && o = o' && Expr.same rest rest'
  | _, _ => false

end

mutual

theorem Factor.same_iff : ∀ f f' : Factor, Factor.same f f' = true ↔ f = f'
  | .number v, f' => by cases f' <;> simp [Factor.same]
  | .group e, f' => by cases f' <;> simp [Factor.same, Expr.same_iff e]
  | .bars e, f' => by cases f' <;> simp [Factor.same, Expr.same_iff e]
  | .power b p, f' => by cases f' <;> simp [Factor.same, Factor.same_iff b, Factor.same_iff p]

theorem Term.same_iff : ∀ t t' : Term, Term.same t t' = true ↔ t = t'
  | .single f, t' => by cases t' <;> simp [Term.same, Factor.same_iff f]
  | .cons f o rest, t' => by
    cases t' <;> simp [Term.same, Factor.same_iff f, Term.same_iff rest, and_assoc]

theorem Expr.same_iff : ∀ e e' : Expr, Expr.same e e' = true ↔ e = e'
  | .single t, e' => by cases e' <;> simp [Expr.same, Term.same_iff t]
  | .cons t o rest, e' => by
    cases e' <;> simp [Expr.same, Term.same_iff t, Expr.same_iff rest, and_assoc]

end

def Program.same : Program → Program → Bool
  | .single e, .single e' => Expr.same e e'
  | .cons e () rest, .cons e' () rest' => Expr.same e e' && Program.same rest rest'
  | _, _ => false

theorem Program.same_iff (p p' : Program) : Program.same p p' = true ↔ p = p' := by
  induction p generalizing p' with
  | single e => cases p' <;> simp [Program.same, Expr.same_iff]
  | cons e o rest ih => cases p' <;> simp [Program.same, Expr.same_iff, ih]

instance : DecidableEq Factor := fun f f' => decidable_of_iff _ (Factor.same_iff f f')

instance : DecidableEq Term := fun t t' => decidable_of_iff _ (Term.same_iff t t')

instance : DecidableEq Expr := fun e e' => decidable_of_iff _ (Expr.same_iff e e')

instance : DecidableEq Program := fun p p' => decidable_of_iff _ (Program.same_iff p p')

end Calculator
