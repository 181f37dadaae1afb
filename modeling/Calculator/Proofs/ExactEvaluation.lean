import Calculator.Proofs.ExactArithmetic
import Calculator.Tree.Evaluation
import Mathlib.Control.Monad.Basic

/-!
# Evaluation is exact

The value of a tree in unbounded integers, and the operations that lead to it in the order of
evaluation, each with the exact integers it is applied to. A chain is evaluated from the left: an
operator waits for its right operand, and is applied as soon as that has a value.

**Theorem (`computes_program`).** Evaluation in 64 bits ends with the first operation that has a
fault. If none has, the values are the exact ones.

The proof goes along the tree with `Computes`, which says so much of any part of the evaluation and
is kept by sequencing. What is left of a chain depends on what is pending before it, so that is a
parameter of the statement for chains.
-/

namespace Calculator

/-- What waits for the next operand of a chain: an operator and its left operand. -/
inductive Pending where
  | nothing
  | operator (op : Operator) (left : Int)

namespace Pending

/-- What becomes of the value of the next operand. -/
def exact : Pending → Int → Int
  | .nothing, n => n
  | .operator op m, n => op.exact m n

def operations : Pending → Int → List Operation
  | .nothing, _ => []
  | .operator op m, n => [.binary op m n]

end Pending

/-! ## Exact values -/

mutual

def Factor.exact : Factor → Int
  | .number v => v.toInt
  | .group e => Expr.exactAfter .nothing e
  | .bars e => (Expr.exactAfter .nothing e).natAbs
  | .power b p => Operator.pow.exact (Factor.exact b) (Factor.exact p)

def Term.exactAfter (pending : Pending) : Term → Int
  | .single f => pending.exact (Factor.exact f)
  | .cons f o rest =>
    Term.exactAfter (.operator o.toOperator (pending.exact (Factor.exact f))) rest

def Expr.exactAfter (pending : Pending) : Expr → Int
  | .single t => pending.exact (Term.exactAfter .nothing t)
  | .cons t o rest =>
    Expr.exactAfter (.operator o.toOperator (pending.exact (Term.exactAfter .nothing t))) rest

end

def Term.exact (t : Term) : Int := t.exactAfter .nothing

def Expr.exact (e : Expr) : Int := e.exactAfter .nothing

/-! ## Operations -/

mutual

/-- The operations of a tree in the order of evaluation. -/
def Factor.operations : Factor → List Operation
  | .number _ => []
  | .group e => Expr.operationsAfter .nothing e
  | .bars e => Expr.operationsAfter .nothing e ++ [.abs (Expr.exactAfter .nothing e)]
  | .power b p =>
    Factor.operations b ++ (Factor.operations p ++ [.binary .pow (Factor.exact b) (Factor.exact p)])

def Term.operationsAfter (pending : Pending) : Term → List Operation
  | .single f => Factor.operations f ++ pending.operations (Factor.exact f)
  | .cons f o rest =>
    Factor.operations f ++ pending.operations (Factor.exact f) ++
      Term.operationsAfter (.operator o.toOperator (pending.exact (Factor.exact f))) rest

def Expr.operationsAfter (pending : Pending) : Expr → List Operation
  | .single t =>
    Term.operationsAfter .nothing t ++ pending.operations (Term.exactAfter .nothing t)
  | .cons t o rest =>
    Term.operationsAfter .nothing t ++ pending.operations (Term.exactAfter .nothing t) ++
      Expr.operationsAfter
        (.operator o.toOperator (pending.exact (Term.exactAfter .nothing t))) rest

end

def Term.operations (t : Term) : List Operation := t.operationsAfter .nothing

def Expr.operations (e : Expr) : List Operation := e.operationsAfter .nothing

def Program.operations (p : Program) : List Operation := p.items.flatMap Expr.operations

/-! ## The first fault -/

/-- A function that does to values what is pending does to integers. -/
def Pending.Joins (pending : Pending) (join : Value → Except RuntimeError Value) : Prop :=
  ∀ v, Computes (join v) (pending.operations v.toInt) fun u => u.toInt = pending.exact v.toInt

theorem joins_nothing : Pending.nothing.Joins .ok := fun _ => computes_ok rfl

theorem joins_operator (op : Operator) (v : Value) :
    (Pending.operator op v.toInt).Joins (op.apply v) :=
  computes_apply op v

/-- An operand, and then what is pending. -/
theorem Computes.join {pending : Pending} {join : Value → Except RuntimeError Value}
    {result : Except RuntimeError Value} {os : List Operation} {n : Int}
    (h : Computes result os fun v => v.toInt = n) (hj : pending.Joins join) :
    Computes (result >>= join) (os ++ pending.operations n) fun v => v.toInt = pending.exact n := by
  refine h.bind fun v hv => ?_
  rw [← hv]
  exact hj v

mutual

theorem computes_factor : ∀ f : Factor,
    Computes f.eval f.operations fun v => v.toInt = f.exact
  | .number v => computes_ok rfl
  | .group e => computes_expr e joins_nothing
  | .bars e => by
    refine (computes_expr e joins_nothing).bind fun v hv => ?_
    rw [Factor.exact, ← hv]
    exact computes_abs v
  | .power b p => by
    refine (computes_factor b).bind fun v hv => (computes_factor p).bind fun w hw => ?_
    rw [Factor.exact, ← hv, ← hw]
    exact computes_apply .pow v w

theorem computes_term : ∀ (t : Term) {pending : Pending}
    {join : Value → Except RuntimeError Value}, pending.Joins join →
    Computes (t.evalFrom join) (t.operationsAfter pending) fun v => v.toInt = t.exactAfter pending
  | .single f, _, _, hj => (computes_factor f).join hj
  | .cons f o rest, _, _, hj => by
    refine ((computes_factor f).join hj).bind fun v hv => ?_
    rw [Term.exactAfter, ← hv]
    exact computes_term rest (joins_operator o.toOperator v)

theorem computes_expr : ∀ (e : Expr) {pending : Pending}
    {join : Value → Except RuntimeError Value}, pending.Joins join →
    Computes (e.evalFrom join) (e.operationsAfter pending) fun v => v.toInt = e.exactAfter pending
  | .single t, _, _, hj => (computes_term t joins_nothing).join hj
  | .cons t o rest, _, _, hj => by
    refine ((computes_term t joins_nothing).join hj).bind fun v hv => ?_
    rw [Expr.exactAfter, ← hv]
    exact computes_expr rest (joins_operator o.toOperator v)

end

theorem computes_items (es : List Expr) : Computes (es.mapM Expr.eval)
    (es.flatMap Expr.operations) fun vs => vs.map Value.toInt = es.map Expr.exact := by
  induction es with
  | nil => exact computes_ok rfl
  | cons e es ih =>
    rw [List.mapM_cons, List.flatMap_cons]
    refine (computes_expr e joins_nothing).bind fun v hv => ?_
    rw [← List.append_nil (es.flatMap Expr.operations)]
    refine ih.bind fun vs hvs => computes_ok ?_
    rw [List.map_cons, List.map_cons, hvs, hv]
    rfl

/-- **Evaluation is exact up to the first fault.** -/
theorem computes_program (p : Program) : Computes p.eval p.operations
    fun vs => vs.map Value.toInt = p.items.map Expr.exact :=
  computes_items p.items

/-! ## The parts of a program -/

/-- A part of a tree that has a value of its own. -/
inductive Node where
  | factor (f : Factor)
  | term (t : Term)
  | expr (e : Expr)

namespace Node

def eval : Node → Except RuntimeError Value
  | .factor f => f.eval
  | .term t => t.eval
  | .expr e => e.eval

def exact : Node → Int
  | .factor f => f.exact
  | .term t => t.exact
  | .expr e => e.exact

def operations : Node → List Operation
  | .factor f => f.operations
  | .term t => t.operations
  | .expr e => e.operations

end Node

mutual

/-- A factor and everything inside it. -/
def Factor.nodes : Factor → List Node
  | .number v => [.factor (.number v)]
  | .group e => .factor (.group e) :: .expr e :: Expr.parts e
  | .bars e => .factor (.bars e) :: .expr e :: Expr.parts e
  | .power b p => .factor (.power b p) :: (Factor.nodes b ++ Factor.nodes p)

/-- The factors of a term and everything inside them. -/
def Term.parts : Term → List Node
  | .single f => Factor.nodes f
  | .cons f _ rest => Factor.nodes f ++ Term.parts rest

/-- The terms of an expression and everything inside them. -/
def Expr.parts : Expr → List Node
  | .single t => .term t :: Term.parts t
  | .cons t _ rest => .term t :: (Term.parts t ++ Expr.parts rest)

end

/-- All expressions, terms and factors of a program. -/
def Program.nodes (p : Program) : List Node := p.items.flatMap fun e => .expr e :: e.parts

theorem computes_node (n : Node) : Computes n.eval n.operations fun v => v.toInt = n.exact := by
  cases n with
  | factor f => exact computes_factor f
  | term t => exact computes_term t joins_nothing
  | expr e => exact computes_expr e joins_nothing

mutual

/-- The operations of a part are among those of the whole. -/
theorem Factor.operations_subset : ∀ f : Factor, ∀ n ∈ f.nodes, n.operations ⊆ f.operations
  | .number v => by
    intro n hn
    rw [Factor.nodes, List.mem_singleton] at hn
    rw [hn]
    exact List.Subset.refl _
  | .group e => by
    rw [Factor.nodes, List.forall_mem_cons, List.forall_mem_cons]
    exact ⟨List.Subset.refl _, List.Subset.refl _, Expr.operations_subset e .nothing⟩
  | .bars e => by
    rw [Factor.nodes, List.forall_mem_cons, List.forall_mem_cons]
    refine ⟨List.Subset.refl _, List.subset_append_left _ _, fun n hn => ?_⟩
    exact List.subset_append_of_subset_left _ (Expr.operations_subset e .nothing n hn)
  | .power b p => by
    rw [Factor.nodes, List.forall_mem_cons, List.forall_mem_append]
    refine ⟨List.Subset.refl _, fun n hn => ?_, fun n hn => ?_⟩
    · exact List.subset_append_of_subset_left _ (Factor.operations_subset b n hn)
    · exact List.subset_append_of_subset_right _
        (List.subset_append_of_subset_left _ (Factor.operations_subset p n hn))

theorem Term.operations_subset : ∀ (t : Term) (pending : Pending),
    ∀ n ∈ t.parts, n.operations ⊆ t.operationsAfter pending
  | .single f, _ => fun n hn =>
    List.subset_append_of_subset_left _ (Factor.operations_subset f n hn)
  | .cons f o rest, pending => by
    rw [Term.parts, List.forall_mem_append]
    refine ⟨fun n hn => ?_, fun n hn => ?_⟩
    · exact List.subset_append_of_subset_left _
        (List.subset_append_of_subset_left _ (Factor.operations_subset f n hn))
    · exact List.subset_append_of_subset_right _ (Term.operations_subset rest _ n hn)

theorem Expr.operations_subset : ∀ (e : Expr) (pending : Pending),
    ∀ n ∈ e.parts, n.operations ⊆ e.operationsAfter pending
  | .single t, _ => by
    rw [Expr.parts, List.forall_mem_cons]
    refine ⟨List.subset_append_left _ _, fun n hn => ?_⟩
    exact List.subset_append_of_subset_left _ (Term.operations_subset t .nothing n hn)
  | .cons t o rest, pending => by
    rw [Expr.parts, List.forall_mem_cons, List.forall_mem_append]
    refine ⟨?_, fun n hn => ?_, fun n hn => ?_⟩
    · exact List.subset_append_of_subset_left _ (List.subset_append_left _ _)
    · exact List.subset_append_of_subset_left _
        (List.subset_append_of_subset_left _ (Term.operations_subset t .nothing n hn))
    · exact List.subset_append_of_subset_right _ (Expr.operations_subset rest _ n hn)

end

theorem Program.operations_subset (p : Program) :
    ∀ n ∈ p.nodes, n.operations ⊆ p.operations := by
  intro n hn o ho
  rw [Program.nodes, List.mem_flatMap] at hn
  obtain ⟨e, he, hn⟩ := hn
  refine List.mem_flatMap.2 ⟨e, he, ?_⟩
  rcases List.mem_cons.1 hn with rfl | hn
  · exact ho
  · exact e.operations_subset .nothing n hn ho

/-- **Evaluation is exact and reports the first failure.** It gives values if and only if every
operation has a divisor other than zero and a result that fits, and then they are the exact values
and every part of the program has its exact value on its own. Otherwise it gives the error of the
first operation with a fault. -/
theorem eval_exact_or_first_fault (p : Program) :
    (∀ vs, p.eval = .ok vs ↔
      (∀ o ∈ p.operations, o.divisor? ≠ some 0 ∧
        -9223372036854775808 ≤ o.exact ∧ o.exact < 9223372036854775808) ∧
      vs.map Value.toInt = p.items.map Expr.exact) ∧
    (∀ vs, p.eval = .ok vs → ∀ n ∈ p.nodes, ∃ v, n.eval = .ok v ∧ v.toInt = n.exact) ∧
    (∀ e, p.eval = .error e ↔ p.operations.findSome? Operation.fault = some e) := by
  have h := computes_program p
  simp only [← Operation.fault_eq_none_iff]
  refine ⟨fun vs => ⟨h.of_ok, fun ⟨hok, hvs⟩ => ?_⟩, fun vs hvs n hn => ?_, fun e => h.eq_error_iff⟩
  · obtain ⟨ws, hws, hexact⟩ := h.exists_ok hok
    rw [hws, List.map_inj_right (fun _ _ => Value.ext) |>.1 (hexact.trans hvs.symm)]
  · have hok := (h.of_ok hvs).1
    exact (computes_node n).exists_ok fun o ho => hok o (p.operations_subset n hn ho)

/-- `5 - 2 - |0 - 5|` is evaluated from the left. -/
theorem eval_exact_or_first_fault_chain :
    let literal (n : Int) (h : fits n = true) : Term := .single (.number ⟨n, h⟩)
    let bars : Term := .single (.bars (.cons (literal 0 rfl) .sub (.single (literal 5 rfl))))
    let p : Program :=
      .single (.cons (literal 5 rfl) .sub (.cons (literal 2 rfl) .sub (.single bars)))
    p.eval = .ok [⟨-2, rfl⟩] ∧ ∀ n ∈ p.nodes, ∃ v, n.eval = .ok v ∧ v.toInt = n.exact := by
  intro literal bars p
  have h : p.eval = .ok [⟨-2, rfl⟩] := by decide
  exact ⟨h, (eval_exact_or_first_fault p).2.1 _ h⟩

end Calculator
