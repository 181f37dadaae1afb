import Calculator.Proofs.Shape

/-!
# Powers associated to the right

A tree that is made by hand may have powers as bases of powers. Its text does not show that, so what
can be read back from it is the tree in which such powers are nested to the right instead: the
powers at one place are taken apart into the factors they are made of, and these are put together
again as a tower.

**Theorem (`Program.tokens_norm`).** That changes no token.

**Theorem (`Program.norm_eq_self_iff`).** The trees it leaves alone are those in which no power is
the base of a power, and all it gives are such trees.
-/

namespace Calculator

/-- The power of some factors, associated to the right. -/
def Factor.tower (f : Factor) : List Factor → Factor
  | [] => f
  | g :: gs => .power f (g.tower gs)

mutual

/-- The factors, none of them a power, that the powers at the root of a factor are made of: the
first one, and the others in order. -/
def Factor.leaves : Factor → Factor × List Factor
  | .number v => (.number v, [])
  | .group e => (.group (Expr.norm e), [])
  | .bars e => (.bars (Expr.norm e), [])
  | .power b p =>
    ((Factor.leaves b).1, (Factor.leaves b).2 ++ (Factor.leaves p).1 :: (Factor.leaves p).2)

def Term.norm : Term → Term
  | .single f => .single ((Factor.leaves f).1.tower (Factor.leaves f).2)
  | .cons f o rest => .cons ((Factor.leaves f).1.tower (Factor.leaves f).2) o (Term.norm rest)

def Expr.norm : Expr → Expr
  | .single t => .single (Term.norm t)
  | .cons t o rest => .cons (Term.norm t) o (Expr.norm rest)

end

/-- All powers of a factor associated to the right. -/
def Factor.norm (f : Factor) : Factor := f.leaves.1.tower f.leaves.2

def Program.norm : Program → Program
  | .single e => .single e.norm
  | .cons e o rest => .cons e.norm o (Program.norm rest)

/-! ## Tokens -/

theorem Factor.tokens_tower (f : Factor) (gs : List Factor) :
    (f.tower gs).tokens = f.tokens ++ gs.flatMap fun g => .caret :: g.tokens := by
  induction gs generalizing f with
  | nil => simp [Factor.tower]
  | cons g gs ih => simp [Factor.tower, Factor.tokens, ih]

mutual

theorem Factor.tokens_norm : ∀ f : Factor, f.norm.tokens = f.tokens
  | .number v => rfl
  | .group e => by
    simp [Factor.norm, Factor.leaves, Factor.tower, Factor.tokens, Expr.tokens_norm e]
  | .bars e => by
    simp [Factor.norm, Factor.leaves, Factor.tower, Factor.tokens, Expr.tokens_norm e]
  | .power b p => by
    have hb := Factor.tokens_norm b
    have hp := Factor.tokens_norm p
    rw [Factor.norm, Factor.tokens_tower] at hb hp ⊢
    rw [Factor.tokens, ← hb, ← hp]
    simp [Factor.leaves]

theorem Term.tokens_norm : ∀ t : Term, t.norm.tokens = t.tokens
  | .single f => Factor.tokens_norm f
  | .cons f o rest => by
    have hf : (f.leaves.1.tower f.leaves.2).tokens = f.tokens := Factor.tokens_norm f
    simp [Term.norm, Term.tokens, hf, Term.tokens_norm rest]

theorem Expr.tokens_norm : ∀ e : Expr, e.norm.tokens = e.tokens
  | .single t => Term.tokens_norm t
  | .cons t o rest => by simp [Expr.norm, Expr.tokens, Term.tokens_norm t, Expr.tokens_norm rest]

end

theorem Program.tokens_norm (p : Program) : p.norm.tokens = p.tokens := by
  induction p with
  | single e => exact e.tokens_norm
  | cons e o rest ih => simp [Program.norm, Program.tokens, Expr.tokens_norm, ih]

/-! ## Normal trees -/

theorem Factor.isNormal_tower {f : Factor} {gs : List Factor}
    (h : ∀ g ∈ f :: gs, g.isPower = false ∧ g.IsNormal) : (f.tower gs).IsNormal := by
  induction gs generalizing f with
  | nil => exact (h f (by simp)).2
  | cons g gs ih =>
    rw [List.forall_mem_cons] at h
    exact ⟨h.1.1, h.1.2, ih h.2⟩

mutual

theorem Factor.isNormal_leaves : ∀ f : Factor,
    ∀ g ∈ f.leaves.1 :: f.leaves.2, g.isPower = false ∧ g.IsNormal
  | .number v => by simp [Factor.leaves, Factor.isPower, Factor.IsNormal]
  | .group e => by
    simpa [Factor.leaves, Factor.isPower, Factor.IsNormal] using Expr.isNormal_norm e
  | .bars e => by
    simpa [Factor.leaves, Factor.isPower, Factor.IsNormal] using Expr.isNormal_norm e
  | .power b p => by
    have h := List.forall_mem_append.2 ⟨Factor.isNormal_leaves b, Factor.isNormal_leaves p⟩
    simpa [Factor.leaves] using h

theorem Term.isNormal_norm : ∀ t : Term, t.norm.IsNormal
  | .single f => Factor.isNormal_tower (Factor.isNormal_leaves f)
  | .cons f _ rest => ⟨Factor.isNormal_tower (Factor.isNormal_leaves f), Term.isNormal_norm rest⟩

theorem Expr.isNormal_norm : ∀ e : Expr, e.norm.IsNormal
  | .single t => Term.isNormal_norm t
  | .cons t _ rest => ⟨Term.isNormal_norm t, Expr.isNormal_norm rest⟩

end

theorem Program.isNormal_norm (p : Program) : p.norm.IsNormal := by
  induction p with
  | single e => exact e.isNormal_norm
  | cons e o rest ih => exact ⟨e.isNormal_norm, ih⟩

/-- A factor that is no power is not taken apart. -/
theorem Factor.leaves_of_isPower_eq_false {f : Factor} (h : f.isPower = false) :
    f.leaves = (f.norm, []) := by
  cases f with
  | power b p => cases h
  | _ => rfl

mutual

theorem Factor.norm_of_isNormal : ∀ f : Factor, f.IsNormal → f.norm = f
  | .number v, _ => rfl
  | .group e, h => congrArg Factor.group (Expr.norm_of_isNormal e h)
  | .bars e, h => congrArg Factor.bars (Expr.norm_of_isNormal e h)
  | .power b p, h => by
    have hb := Factor.norm_of_isNormal b h.2.1
    have hp := Factor.norm_of_isNormal p h.2.2
    rw [Factor.norm, Factor.leaves, Factor.leaves_of_isPower_eq_false h.1, hb]
    exact congrArg (Factor.power b) hp

theorem Term.norm_of_isNormal : ∀ t : Term, t.IsNormal → t.norm = t
  | .single f, h => congrArg Chain.single (Factor.norm_of_isNormal f h)
  | .cons f o rest, h => by
    have hf : f.leaves.1.tower f.leaves.2 = f := Factor.norm_of_isNormal f h.1
    rw [Term.norm, hf, Term.norm_of_isNormal rest h.2]

theorem Expr.norm_of_isNormal : ∀ e : Expr, e.IsNormal → e.norm = e
  | .single t, h => congrArg Chain.single (Term.norm_of_isNormal t h)
  | .cons t o rest, h => by
    rw [Expr.norm, Term.norm_of_isNormal t h.1, Expr.norm_of_isNormal rest h.2]

end

theorem Program.norm_of_isNormal (p : Program) (h : p.IsNormal) : p.norm = p := by
  induction p with
  | single e => exact congrArg Chain.single (e.norm_of_isNormal h)
  | cons e o rest ih => rw [Program.norm, e.norm_of_isNormal h.1, ih h.2]

/-- **Exactly the normal trees are left alone.** -/
theorem Program.norm_eq_self_iff {p : Program} : p.norm = p ↔ p.IsNormal :=
  ⟨fun h => h ▸ p.isNormal_norm, p.norm_of_isNormal⟩

end Calculator
