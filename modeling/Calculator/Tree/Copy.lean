import Calculator.Tree

/-!
# Copies of trees

A tree is copied from the leaves up, and a chain by collecting the copies of its items and
linking them together again.

**Theorem (`Factor.copy_eq`).** A copy is the same tree.
-/

namespace Calculator

mutual

def Factor.copy : Factor → Factor
  | .number v => .number v
  | .group e => .group (Expr.copyOnto [] e)
  | .bars e => .bars (Expr.copyOnto [] e)
  | .power b p => .power (Factor.copy b) (Factor.copy p)

/-- A copy of a term, put after copies of the factors before it, given nearest first. -/
def Term.copyOnto (before : List (Factor × MulOp)) : Term → Term
  | .single f => .endingIn (Factor.copy f) before
  | .cons f o rest => Term.copyOnto ((Factor.copy f, o) :: before) rest

/-- A copy of an expression, put after copies of the terms before it, given nearest first. -/
def Expr.copyOnto (before : List (Term × AddOp)) : Expr → Expr
  | .single t => .endingIn (Term.copyOnto [] t) before
  | .cons t o rest => Expr.copyOnto ((Term.copyOnto [] t, o) :: before) rest

end

/-- A copy of a program, put after copies of the expressions before it, given nearest first. -/
def Program.copyOnto (before : List (Expr × Unit)) : Program → Program
  | .single e => .endingIn (Expr.copyOnto [] e) before
  | .cons e o rest => Program.copyOnto ((Expr.copyOnto [] e, o) :: before) rest

def Term.copy (t : Term) : Term := t.copyOnto []

def Expr.copy (e : Expr) : Expr := e.copyOnto []

def Program.copy (p : Program) : Program := p.copyOnto []

mutual

theorem Factor.copy_eq : ∀ f : Factor, f.copy = f
  | .number v => by rw [Factor.copy]
  | .group e => by rw [Factor.copy, Expr.copyOnto_eq]; rfl
  | .bars e => by rw [Factor.copy, Expr.copyOnto_eq]; rfl
  | .power b p => by rw [Factor.copy, Factor.copy_eq b, Factor.copy_eq p]

theorem Term.copyOnto_eq : ∀ (before : List (Factor × MulOp)) (t : Term),
    t.copyOnto before = t.prepend before
  | before, .single f => by rw [Term.copyOnto, Factor.copy_eq f]; rfl
  | before, .cons f o rest => by
    rw [Term.copyOnto, Factor.copy_eq f, Term.copyOnto_eq _ rest]; rfl

theorem Expr.copyOnto_eq : ∀ (before : List (Term × AddOp)) (e : Expr),
    e.copyOnto before = e.prepend before
  | before, .single t => by rw [Expr.copyOnto, Term.copyOnto_eq [] t]; rfl
  | before, .cons t o rest => by
    rw [Expr.copyOnto, Term.copyOnto_eq [] t, Expr.copyOnto_eq _ rest]; rfl

end

theorem Program.copyOnto_eq (before : List (Expr × Unit)) (p : Program) :
    p.copyOnto before = p.prepend before := by
  induction p generalizing before with
  | single e => rw [Program.copyOnto, Expr.copyOnto_eq]; rfl
  | cons e o rest ih => rw [Program.copyOnto, Expr.copyOnto_eq, ih]; rfl

theorem Program.copy_eq (p : Program) : p.copy = p := Program.copyOnto_eq [] p

end Calculator
