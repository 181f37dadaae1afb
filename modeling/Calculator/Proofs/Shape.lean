import Calculator.Token
import Calculator.Tree

/-!
# The shape of trees

What can be said of a tree without evaluating it: the tokens it is written with, how deep it is
nested, and whether a power is the base of a power.

The nesting of a tree counts parentheses, bars and carets. The operators of a chain and the base
of a power are not nested in anything, so they cost nothing. `levels` shows the nesting at every
token, and `Factor.levels_le_iff` says that the depth of a tree is the highest level it reaches.
-/

namespace Calculator

def AddOp.token : AddOp → Token
  | .add => .plus
  | .sub => .minus

def MulOp.token : MulOp → Token
  | .mul => .times
  | .div => .slash

/-! ## Tokens -/

mutual

/-- The tokens a tree is written with, in order. -/
def Factor.tokens : Factor → List Token
  | .number v => [.number v]
  | .group e => .leftParen :: (Expr.tokens e ++ [.rightParen])
  | .bars e => .bar :: (Expr.tokens e ++ [.bar])
  | .power b p => Factor.tokens b ++ .caret :: Factor.tokens p

def Term.tokens : Term → List Token
  | .single f => Factor.tokens f
  | .cons f o rest => Factor.tokens f ++ o.token :: Term.tokens rest

def Expr.tokens : Expr → List Token
  | .single t => Term.tokens t
  | .cons t o rest => Term.tokens t ++ o.token :: Expr.tokens rest

end

/-- The tokens of a program up to its stop. -/
def Program.tokens : Program → List Token
  | .single e => e.tokens
  | .cons e () rest => e.tokens ++ .semicolon :: Program.tokens rest

/-- No literal is negative. -/
def Program.IsNonneg (p : Program) : Prop := ∀ v, .number v ∈ p.tokens → 0 ≤ v.toInt

/-! ## Depth -/

mutual

/-- How many parentheses, bars and carets lie around the most deeply nested factor. -/
def Factor.depth : Factor → Nat
  | .number _ => 0
  | .group e => Expr.depth e + 1
  | .bars e => Expr.depth e + 1
  | .power b p => max (Factor.depth b) (Factor.depth p + 1)

def Term.depth : Term → Nat
  | .single f => Factor.depth f
  | .cons f _ rest => max (Factor.depth f) (Term.depth rest)

def Expr.depth : Expr → Nat
  | .single t => Term.depth t
  | .cons t _ rest => max (Term.depth t) (Expr.depth rest)

end

def Program.depth : Program → Nat
  | .single e => e.depth
  | .cons e _ rest => max e.depth (Program.depth rest)

mutual

/-- The tokens of a tree that lies `k` deep, each with the depth of what comes right after it. -/
def Factor.levels (k : Nat) : Factor → List (Token × Nat)
  | .number v => [(.number v, k)]
  | .group e => (.leftParen, k + 1) :: (Expr.levels (k + 1) e ++ [(.rightParen, k)])
  | .bars e => (.bar, k + 1) :: (Expr.levels (k + 1) e ++ [(.bar, k)])
  | .power b p => Factor.levels k b ++ (.caret, k + 1) :: Factor.levels (k + 1) p

def Term.levels (k : Nat) : Term → List (Token × Nat)
  | .single f => Factor.levels k f
  | .cons f o rest => Factor.levels k f ++ (o.token, k) :: Term.levels k rest

def Expr.levels (k : Nat) : Expr → List (Token × Nat)
  | .single t => Term.levels k t
  | .cons t o rest => Term.levels k t ++ (o.token, k) :: Expr.levels k rest

end

def Program.levels : Program → List (Token × Nat)
  | .single e => e.levels 0
  | .cons e () rest => e.levels 0 ++ (.semicolon, 0) :: Program.levels rest

mutual

theorem Factor.map_fst_levels : ∀ (k : Nat) (f : Factor), (f.levels k).map Prod.fst = f.tokens
  | _, .number _ => rfl
  | k, .group e => by simp [Factor.levels, Factor.tokens, Expr.map_fst_levels (k + 1) e]
  | k, .bars e => by simp [Factor.levels, Factor.tokens, Expr.map_fst_levels (k + 1) e]
  | k, .power b p => by
    simp [Factor.levels, Factor.tokens, Factor.map_fst_levels k b,
      Factor.map_fst_levels (k + 1) p]

theorem Term.map_fst_levels : ∀ (k : Nat) (t : Term), (t.levels k).map Prod.fst = t.tokens
  | k, .single f => by rw [Term.levels, Term.tokens, Factor.map_fst_levels k f]
  | k, .cons f o rest => by
    simp [Term.levels, Term.tokens, Factor.map_fst_levels k f, Term.map_fst_levels k rest]

theorem Expr.map_fst_levels : ∀ (k : Nat) (e : Expr), (e.levels k).map Prod.fst = e.tokens
  | k, .single t => by rw [Expr.levels, Expr.tokens, Term.map_fst_levels k t]
  | k, .cons t o rest => by
    simp [Expr.levels, Expr.tokens, Term.map_fst_levels k t, Expr.map_fst_levels k rest]

end

theorem Program.map_fst_levels (p : Program) : p.levels.map Prod.fst = p.tokens := by
  induction p with
  | single e => rw [Program.levels, Program.tokens, Expr.map_fst_levels]
  | cons e o rest ih => simp [Program.levels, Program.tokens, Expr.map_fst_levels, ih]

/-- What lies one deeper than `k` reaches `d` further levels. -/
theorem one_deeper_le_iff {k d n : Nat} {P : Prop} (h : k + 1 ≤ n → (P ↔ k + 1 + d ≤ n)) :
    (k + 1 ≤ n ∧ P) ↔ k + (d + 1) ≤ n := by
  constructor
  · rintro ⟨hk, hP⟩
    have := (h hk).1 hP
    omega
  · intro hd
    have hk : k + 1 ≤ n := by omega
    exact ⟨hk, (h hk).2 (by omega)⟩

mutual

/-- **The depth is the highest level.** -/
theorem Factor.levels_le_iff {n : Nat} : ∀ (k : Nat) (f : Factor), k ≤ n →
    ((∀ x ∈ f.levels k, x.2 ≤ n) ↔ k + f.depth ≤ n)
  | k, .number v, hk => by simp [Factor.levels, Factor.depth, hk]
  | k, .group e, hk => by
    have he := one_deeper_le_iff (Expr.levels_le_iff (n := n) (k + 1) e)
    rw [Factor.levels, Factor.depth, List.forall_mem_cons, List.forall_mem_append, ← he]
    simp [hk]
  | k, .bars e, hk => by
    have he := one_deeper_le_iff (Expr.levels_le_iff (n := n) (k + 1) e)
    rw [Factor.levels, Factor.depth, List.forall_mem_cons, List.forall_mem_append, ← he]
    simp [hk]
  | k, .power b p, hk => by
    have hp := one_deeper_le_iff (Factor.levels_le_iff (n := n) (k + 1) p)
    rw [Factor.levels, Factor.depth, List.forall_mem_append, List.forall_mem_cons,
      Factor.levels_le_iff k b hk, hp]
    omega

theorem Term.levels_le_iff {n : Nat} : ∀ (k : Nat) (t : Term), k ≤ n →
    ((∀ x ∈ t.levels k, x.2 ≤ n) ↔ k + t.depth ≤ n)
  | k, .single f, hk => by rw [Term.levels, Term.depth, Factor.levels_le_iff k f hk]
  | k, .cons f o rest, hk => by
    rw [Term.levels, Term.depth, List.forall_mem_append, List.forall_mem_cons,
      Factor.levels_le_iff k f hk, Term.levels_le_iff k rest hk]
    simp only
    omega

theorem Expr.levels_le_iff {n : Nat} : ∀ (k : Nat) (e : Expr), k ≤ n →
    ((∀ x ∈ e.levels k, x.2 ≤ n) ↔ k + e.depth ≤ n)
  | k, .single t, hk => by rw [Expr.levels, Expr.depth, Term.levels_le_iff k t hk]
  | k, .cons t o rest, hk => by
    rw [Expr.levels, Expr.depth, List.forall_mem_append, List.forall_mem_cons,
      Term.levels_le_iff k t hk, Expr.levels_le_iff k rest hk]
    simp only
    omega

end

theorem Program.levels_le_iff {n : Nat} (p : Program) :
    (∀ x ∈ p.levels, x.2 ≤ n) ↔ p.depth ≤ n := by
  induction p with
  | single e =>
    rw [Program.levels, Program.depth, Expr.levels_le_iff 0 e (Nat.zero_le n), Nat.zero_add]
  | cons e o rest ih =>
    rw [Program.levels, Program.depth, List.forall_mem_append, List.forall_mem_cons,
      Expr.levels_le_iff 0 e (Nat.zero_le n), ih]
    simp only
    omega

/-! ## Powers nested to the right -/

def Factor.isPower : Factor → Bool
  | .power _ _ => true
  | _ => false

mutual

/-- No power is the base of a power. -/
def Factor.IsNormal : Factor → Prop
  | .number _ => True
  | .group e => Expr.IsNormal e
  | .bars e => Expr.IsNormal e
  | .power b p => b.isPower = false ∧ Factor.IsNormal b ∧ Factor.IsNormal p

def Term.IsNormal : Term → Prop
  | .single f => Factor.IsNormal f
  | .cons f _ rest => Factor.IsNormal f ∧ Term.IsNormal rest

def Expr.IsNormal : Expr → Prop
  | .single t => Term.IsNormal t
  | .cons t _ rest => Term.IsNormal t ∧ Expr.IsNormal rest

end

def Program.IsNormal : Program → Prop
  | .single e => e.IsNormal
  | .cons e _ rest => e.IsNormal ∧ Program.IsNormal rest

end Calculator
