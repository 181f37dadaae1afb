import Calculator.Proofs.ExactEvaluation
import Mathlib.Logic.Relation

/-!
# Associativity made explicit

A chain is evaluated from the left and a tower of powers from the right. So parentheses around the
first items of a chain, or around the exponent of a power, say what happens anyway: `Regroups` puts
one such pair of parentheses anywhere into a tree.

**Theorem (`regrouping_keeps_meaning`).** However many pairs are put in, the values stay the same,
and so does the error if there is one. With enough of them the tree needs no rule of association any
more.

A chain is evaluated by a fold over its links, and a fold over some first links can be done before
the rest. That settles the step itself; in any place of a tree it changes one part into another of
the same value.
-/

namespace Calculator

open Relation

namespace Chain

variable {ο α : Type}

/-! ## Chains from the left -/

section Value

variable (item : α → Except RuntimeError Value)
  (apply : ο → Value → Value → Except RuntimeError Value)

/-- The value of what is left of a chain. `join` says what becomes of the value of its first
item. -/
def valueFrom (join : Value → Except RuntimeError Value) : Chain ο α → Except RuntimeError Value
  | .single a => item a >>= join
  | .cons a o rest => item a >>= join >>= fun v => valueFrom (apply o v) rest

/-- The links of a chain are taken one after another. -/
theorem valueFrom_ofLinks (join : Value → Except RuntimeError Value) (a : α)
    (links : List (ο × α)) : valueFrom item apply join (ofLinks a links) =
      item a >>= join >>= links.foldlM fun v link => item link.2 >>= apply link.1 v := by
  induction links generalizing a join with
  | nil => exact (bind_pure _).symm
  | cons link links ih =>
    rw [ofLinks, valueFrom]
    simp only [ih, List.foldlM_cons]

variable {item apply}

/-- The first items of a chain can be one item with their value. -/
theorem valueFrom_firsts {wrap : Chain ο α → α}
    (hwrap : ∀ c, item (wrap c) = valueFrom item apply .ok c) (a : α) (taken rest : List (ο × α)) :
    valueFrom item apply .ok (ofLinks (wrap (ofLinks a taken)) rest) =
      valueFrom item apply .ok (ofLinks a (taken ++ rest)) := by
  have hok (x : Except RuntimeError Value) : (x >>= .ok) = x := bind_pure x
  simp only [valueFrom_ofLinks, hwrap, hok, List.foldlM_append, bind_assoc]

end Value

/-! ## One item of a chain -/

/-- One item, in some place of the chain, is replaced by another. -/
inductive Replaces (a b : α) : Chain ο α → Chain ο α → Prop
  | single : Replaces a b (.single a) (.single b)
  | first (o : ο) (rest : Chain ο α) : Replaces a b (.cons a o rest) (.cons b o rest)
  | later (x : α) (o : ο) {rest rest' : Chain ο α} :
      Replaces a b rest rest' → Replaces a b (.cons x o rest) (.cons x o rest')

namespace Replaces

variable {a b : α} {c c' : Chain ο α}

theorem prepend (h : Replaces a b c c') (before : List (α × ο)) :
    Replaces a b (c.prepend before) (c'.prepend before) := by
  induction before generalizing c c' with
  | nil => exact h
  | cons x before ih => exact ih (h.later x.1 x.2)

theorem valueFrom_eq {item : α → Except RuntimeError Value}
    {apply : ο → Value → Value → Except RuntimeError Value} (h : Replaces a b c c')
    (hitem : item b = item a) (join : Value → Except RuntimeError Value) :
    valueFrom item apply join c' = valueFrom item apply join c := by
  induction h generalizing join with
  | single => rw [valueFrom, valueFrom, hitem]
  | first o rest => rw [valueFrom, valueFrom, hitem]
  | later x o _ ih => simp only [valueFrom, ih]

theorem mapM_eq {β ε : Type} {f : α → Except ε β} (h : Replaces a b c c') (hf : f b = f a) :
    c'.items.mapM f = c.items.mapM f := by
  induction h with
  | single => simp only [items, List.mapM_cons, hf]
  | first o rest => simp only [items, List.mapM_cons, hf]
  | later x o _ ih => simp only [items, List.mapM_cons, ih]

end Replaces

/-! ## Chains nested to the left -/

variable (wrap : Chain ο α → α)

/-- The chain of an item, an operator and a chain, with brackets from the left: each operator but
the last is in brackets together with all that is before it. -/
def nestAfter (a : α) (o : ο) : Chain ο α → Chain ο α
  | .single b => .cons a o (.single b)
  | .cons b o' rest => nestAfter (wrap (.cons a o (.single b))) o' rest

/-- All operators of a chain but the last in brackets. -/
def nestLeft : Chain ο α → Chain ο α
  | .single a => .single a
  | .cons a o rest => nestAfter wrap a o rest

variable {wrap}

/-- Brackets from the left are brackets around first items, again and again. -/
theorem nestLeft_of_firsts {S : Chain ο α → Chain ο α → Prop}
    (hS : ∀ a taken rest, S (ofLinks a (taken ++ rest)) (ofLinks (wrap (ofLinks a taken)) rest))
    (c : Chain ο α) : ReflTransGen S c (c.nestLeft wrap) := by
  cases c with
  | single a => exact .refl
  | cons a o rest =>
    show ReflTransGen S (.cons a o rest) (nestAfter wrap a o rest)
    induction rest generalizing a o with
    | single b => exact .refl
    | cons b o' rest ih =>
      refine .head ?_ (ih (wrap (.cons a o (.single b))) o')
      simpa [ofLinks] using hS a [(o, b)] ((o', rest.head) :: rest.links)

/-- What holds of the items and is kept by brackets holds after nesting, where no chain has more
than one operator. -/
theorem nestLeft_invariant {P : α → Prop}
    (hP : ∀ c : Chain ο α, c.links.length ≤ 1 → (∀ a ∈ c.items, P a) → P (wrap c))
    {c : Chain ο α} (hc : ∀ a ∈ c.items, P a) :
    (c.nestLeft wrap).links.length ≤ 1 ∧ ∀ a ∈ (c.nestLeft wrap).items, P a := by
  cases c with
  | single a => exact ⟨Nat.zero_le 1, hc⟩
  | cons a o rest =>
    rw [items, List.forall_mem_cons] at hc
    show (nestAfter wrap a o rest).links.length ≤ 1 ∧ ∀ x ∈ (nestAfter wrap a o rest).items, P x
    obtain ⟨ha, hrest⟩ := hc
    induction rest generalizing a o with
    | single b => exact ⟨Nat.le_refl 1, List.forall_mem_cons.2 ⟨ha, hrest⟩⟩
    | cons b o' rest ih =>
      rw [items, List.forall_mem_cons] at hrest
      refine ih _ o' (hP _ (Nat.le_refl 1) ?_) hrest.2
      exact List.forall_mem_cons.2 ⟨ha, List.forall_mem_singleton.2 hrest.1⟩

end Chain

/-! ## Parentheses -/

/-- An expression in parentheses, as a term. -/
def Expr.asTerm (e : Expr) : Term := .single (.group e)

/-- A term in parentheses, as a factor. -/
def Term.asFactor (t : Term) : Factor := .group (.single t)

/-- A factor in parentheses. -/
def Factor.inParens (f : Factor) : Factor := .group (.single (.single f))

mutual

/-- One pair of parentheses is put into a factor: around an exponent, or somewhere inside. -/
inductive Factor.Regroups : Factor → Factor → Prop
  | exponent (b p : Factor) : Factor.Regroups (.power b p) (.power b p.inParens)
  | inGroup {e e' : Expr} : Expr.Regroups e e' → Factor.Regroups (.group e) (.group e')
  | inBars {e e' : Expr} : Expr.Regroups e e' → Factor.Regroups (.bars e) (.bars e')
  | inBase {b b' : Factor} (p : Factor) :
      Factor.Regroups b b' → Factor.Regroups (.power b p) (.power b' p)
  | inExponent (b : Factor) {p p' : Factor} :
      Factor.Regroups p p' → Factor.Regroups (.power b p) (.power b p')

/-- One pair of parentheses is put into a term: around its first factors, or into a factor. -/
inductive Term.Regroups : Term → Term → Prop
  | firsts (f : Factor) (taken rest : List (MulOp × Factor)) :
      Term.Regroups (.ofLinks f (taken ++ rest)) (.ofLinks (Term.asFactor (.ofLinks f taken)) rest)
  | inFactor {f f' : Factor} {t t' : Term} :
      Factor.Regroups f f' → Chain.Replaces f f' t t' → Term.Regroups t t'

/-- One pair of parentheses is put into an expression: around its first terms, or into a term. -/
inductive Expr.Regroups : Expr → Expr → Prop
  | firsts (t : Term) (taken rest : List (AddOp × Term)) :
      Expr.Regroups (.ofLinks t (taken ++ rest)) (.ofLinks (Expr.asTerm (.ofLinks t taken)) rest)
  | inTerm {t t' : Term} {e e' : Expr} :
      Term.Regroups t t' → Chain.Replaces t t' e e' → Expr.Regroups e e'

end

/-- One pair of parentheses is put into a program. -/
inductive Program.Regroups : Program → Program → Prop
  | inExpr {e e' : Expr} {p p' : Program} :
      Expr.Regroups e e' → Chain.Replaces e e' p p' → Program.Regroups p p'

/-! ## Values -/

theorem Term.evalFrom_eq_valueFrom (join : Value → Except RuntimeError Value) (t : Term) :
    t.evalFrom join = t.valueFrom Factor.eval (fun o => o.toOperator.apply) join := by
  induction t generalizing join with
  | single f => rfl
  | cons f o rest ih => simp only [Term.evalFrom, Chain.valueFrom, ih]

theorem Expr.evalFrom_eq_valueFrom (join : Value → Except RuntimeError Value) (e : Expr) :
    e.evalFrom join = e.valueFrom Term.eval (fun o => o.toOperator.apply) join := by
  induction e generalizing join with
  | single t => rfl
  | cons t o rest ih => simp only [Expr.evalFrom, Chain.valueFrom, Term.eval, ih]

theorem Expr.eval_asTerm (e : Expr) : e.asTerm.eval = e.eval := bind_pure _

theorem Term.eval_asFactor (t : Term) : t.asFactor.eval = t.eval := bind_pure _

theorem Factor.eval_inParens (f : Factor) : f.inParens.eval = f.eval :=
  (bind_pure _).trans (bind_pure _)

mutual

theorem Factor.Regroups.eval_eq : ∀ {f f' : Factor}, f.Regroups f' → f'.eval = f.eval
  | _, _, .exponent b p => by rw [Factor.eval, Factor.eval, p.eval_inParens]
  | _, _, .inGroup h => h.eval_eq
  | _, _, .inBars h => congrArg (· >>= Value.abs) h.eval_eq
  | _, _, .inBase p h => by rw [Factor.eval, Factor.eval, h.eval_eq]
  | _, _, .inExponent b h => by rw [Factor.eval, Factor.eval, h.eval_eq]

theorem Term.Regroups.eval_eq : ∀ {t t' : Term}, t.Regroups t' → t'.eval = t.eval
  | _, _, .firsts f taken rest => by
    simp only [Term.eval, Term.evalFrom_eq_valueFrom]
    refine Chain.valueFrom_firsts (fun t => ?_) f taken rest
    rw [Term.eval_asFactor, Term.eval, Term.evalFrom_eq_valueFrom]
  | _, _, .inFactor h hr => by
    simp only [Term.eval, Term.evalFrom_eq_valueFrom]
    exact hr.valueFrom_eq h.eval_eq .ok

theorem Expr.Regroups.eval_eq : ∀ {e e' : Expr}, e.Regroups e' → e'.eval = e.eval
  | _, _, .firsts t taken rest => by
    simp only [Expr.eval, Expr.evalFrom_eq_valueFrom]
    refine Chain.valueFrom_firsts (fun e => ?_) t taken rest
    rw [Expr.eval_asTerm, Expr.eval, Expr.evalFrom_eq_valueFrom]
  | _, _, .inTerm h hr => by
    simp only [Expr.eval, Expr.evalFrom_eq_valueFrom]
    exact hr.valueFrom_eq h.eval_eq .ok

end

theorem Program.Regroups.eval_eq {p p' : Program} (h : p.Regroups p') : p'.eval = p.eval := by
  obtain ⟨he, hr⟩ := h
  exact hr.mapM_eq he.eval_eq

/-- Any number of pairs. -/
theorem Program.eval_of_reflTransGen {p q : Program} (h : ReflTransGen Program.Regroups p q) :
    q.eval = p.eval := by
  induction h with
  | refl => rfl
  | tail _ hs ih => exact hs.eval_eq.trans ih

/-! ## All parentheses -/

mutual

/-- The factor with every chain inside it nested to the left and every exponent in parentheses. -/
def Factor.parenthesized : Factor → Factor
  | .number v => .number v
  | .group e => .group ((Expr.parenthesizedItems e).nestLeft Expr.asTerm)
  | .bars e => .bars ((Expr.parenthesizedItems e).nestLeft Expr.asTerm)
  | .power b p => .power (Factor.parenthesized b) (Factor.parenthesized p).inParens

def Term.parenthesizedItems : Term → Term
  | .single f => .single (Factor.parenthesized f)
  | .cons f o rest => .cons (Factor.parenthesized f) o (Term.parenthesizedItems rest)

def Expr.parenthesizedItems : Expr → Expr
  | .single t => .single ((Term.parenthesizedItems t).nestLeft Term.asFactor)
  | .cons t o rest =>
    .cons ((Term.parenthesizedItems t).nestLeft Term.asFactor) o (Expr.parenthesizedItems rest)

end

def Term.parenthesized (t : Term) : Term := t.parenthesizedItems.nestLeft Term.asFactor

def Expr.parenthesized (e : Expr) : Expr := e.parenthesizedItems.nestLeft Expr.asTerm

def Program.parenthesized : Program → Program
  | .single e => .single e.parenthesized
  | .cons e o rest => .cons e.parenthesized o (Program.parenthesized rest)

/-- Once its factors are done, a term is nested to the left. -/
theorem Term.regroups_nested {t : Term} (h : ReflTransGen Term.Regroups t t.parenthesizedItems) :
    ReflTransGen Term.Regroups t t.parenthesized :=
  h.trans (Chain.nestLeft_of_firsts .firsts _)

theorem Expr.regroups_nested {e : Expr} (h : ReflTransGen Expr.Regroups e e.parenthesizedItems) :
    ReflTransGen Expr.Regroups e e.parenthesized :=
  h.trans (Chain.nestLeft_of_firsts .firsts _)

mutual

theorem Factor.regroups_parenthesized : ∀ f : Factor,
    ReflTransGen Factor.Regroups f f.parenthesized
  | .number v => .refl
  | .group e =>
    (Expr.regroups_nested (Expr.regroups_items [] e)).lift Factor.group fun _ _ h => .inGroup h
  | .bars e =>
    (Expr.regroups_nested (Expr.regroups_items [] e)).lift Factor.bars fun _ _ h => .inBars h
  | .power b p => by
    have hb : ReflTransGen Factor.Regroups (.power b p) (.power b.parenthesized p) :=
      (Factor.regroups_parenthesized b).lift (Factor.power · p) fun _ _ h => .inBase p h
    have hp : ReflTransGen Factor.Regroups (.power b.parenthesized p)
        (.power b.parenthesized p.parenthesized) :=
      (Factor.regroups_parenthesized p).lift _ fun _ _ h => .inExponent b.parenthesized h
    exact (hb.trans hp).tail (.exponent b.parenthesized p.parenthesized)

/-- The factors of a term are done one after another, with those before them done already. -/
theorem Term.regroups_items : ∀ (before : List (Factor × MulOp)) (t : Term),
    ReflTransGen Term.Regroups (t.prepend before) (t.parenthesizedItems.prepend before)
  | before, .single f =>
    (Factor.regroups_parenthesized f).lift (fun g => (Chain.single g).prepend before)
      fun _ _ h => .inFactor h (Chain.Replaces.single.prepend before)
  | before, .cons f o rest => by
    have hf : ReflTransGen Term.Regroups ((Chain.cons f o rest).prepend before)
        ((Chain.cons f.parenthesized o rest).prepend before) :=
      (Factor.regroups_parenthesized f).lift (fun g => (Chain.cons g o rest).prepend before)
        fun _ _ h => .inFactor h ((Chain.Replaces.first o rest).prepend before)
    exact hf.trans (Term.regroups_items ((f.parenthesized, o) :: before) rest)

theorem Expr.regroups_items : ∀ (before : List (Term × AddOp)) (e : Expr),
    ReflTransGen Expr.Regroups (e.prepend before) (e.parenthesizedItems.prepend before)
  | before, .single t =>
    (Term.regroups_nested (Term.regroups_items [] t)).lift
      (fun u => (Chain.single u).prepend before)
      fun _ _ h => .inTerm h (Chain.Replaces.single.prepend before)
  | before, .cons t o rest => by
    have ht : ReflTransGen Expr.Regroups ((Chain.cons t o rest).prepend before)
        ((Chain.cons (Term.parenthesized t) o rest).prepend before) :=
      (Term.regroups_nested (Term.regroups_items [] t)).lift
        (fun u => (Chain.cons u o rest).prepend before)
        fun _ _ h => .inTerm h ((Chain.Replaces.first o rest).prepend before)
    exact ht.trans (Expr.regroups_items ((Term.parenthesized t, o) :: before) rest)

end

theorem Program.regroups_items (before : List (Expr × Unit)) (p : Program) :
    ReflTransGen Program.Regroups (p.prepend before) (p.parenthesized.prepend before) := by
  induction p generalizing before with
  | single e =>
    exact (Expr.regroups_nested (Expr.regroups_items [] e)).lift
      (fun d => (Chain.single d).prepend before)
      fun _ _ h => .inExpr h (Chain.Replaces.single.prepend before)
  | cons e o rest ih =>
    have he : ReflTransGen Program.Regroups ((Chain.cons e o rest).prepend before)
        ((Chain.cons e.parenthesized o rest).prepend before) :=
      (Expr.regroups_nested (Expr.regroups_items [] e)).lift
        (fun d => (Chain.cons d o rest).prepend before)
        fun _ _ h => .inExpr h ((Chain.Replaces.first o rest).prepend before)
    exact he.trans (ih ((e.parenthesized, o) :: before))

/-! ## No rule of association is left -/

/-- The part can be read without a rule of association: a chain has at most one operator, and an
exponent is in parentheses. -/
def Node.IsExplicit : Node → Prop
  | .factor (.power _ p) => ∃ e, p = .group e
  | .factor _ => True
  | .term t => t.links.length ≤ 1
  | .expr e => e.links.length ≤ 1

def Factor.IsExplicit (f : Factor) : Prop := ∀ n ∈ f.nodes, n.IsExplicit

def Term.IsExplicit (t : Term) : Prop := t.links.length ≤ 1 ∧ ∀ f ∈ t.items, f.IsExplicit

def Expr.IsExplicit (e : Expr) : Prop := e.links.length ≤ 1 ∧ ∀ t ∈ e.items, Term.IsExplicit t

theorem Term.forall_mem_parts {P : Node → Prop} {t : Term} :
    (∀ n ∈ t.parts, P n) ↔ ∀ f ∈ t.items, ∀ n ∈ f.nodes, P n := by
  induction t with
  | single f => simp [Term.parts, Chain.items]
  | cons f o rest ih =>
    rw [Term.parts, List.forall_mem_append, ih, Chain.items, List.forall_mem_cons]

theorem Expr.forall_mem_parts {P : Node → Prop} {e : Expr} :
    (∀ n ∈ e.parts, P n) ↔ ∀ t ∈ e.items, P (.term t) ∧ ∀ n ∈ t.parts, P n := by
  induction e with
  | single t => simp [Expr.parts, Chain.items]
  | cons t o rest ih =>
    rw [Expr.parts, List.forall_mem_cons, List.forall_mem_append, ih, Chain.items,
      List.forall_mem_cons, and_assoc]

theorem Expr.isExplicit_iff {e : Expr} : e.IsExplicit ↔ ∀ n ∈ .expr e :: e.parts, n.IsExplicit := by
  rw [List.forall_mem_cons, Expr.forall_mem_parts]
  simp only [Term.forall_mem_parts]
  rfl

theorem Expr.IsExplicit.group {e : Expr} (h : e.IsExplicit) : (Factor.group e).IsExplicit :=
  List.forall_mem_cons.2 ⟨trivial, Expr.isExplicit_iff.1 h⟩

theorem Expr.IsExplicit.bars {e : Expr} (h : e.IsExplicit) : (Factor.bars e).IsExplicit :=
  List.forall_mem_cons.2 ⟨trivial, Expr.isExplicit_iff.1 h⟩

theorem Term.IsExplicit.alone {t : Term} (h : t.IsExplicit) : Expr.IsExplicit (.single t) :=
  ⟨Nat.zero_le 1, List.forall_mem_singleton.2 h⟩

theorem Factor.IsExplicit.alone {f : Factor} (h : f.IsExplicit) : Term.IsExplicit (.single f) :=
  ⟨Nat.zero_le 1, List.forall_mem_singleton.2 h⟩

theorem Term.isExplicit_nestLeft {t : Term} (h : ∀ f ∈ t.items, f.IsExplicit) :
    Term.IsExplicit (t.nestLeft Term.asFactor) :=
  Chain.nestLeft_invariant (fun t hlength hitems =>
    (Term.IsExplicit.alone (t := t) ⟨hlength, hitems⟩).group) h

theorem Expr.isExplicit_nestLeft {e : Expr} (h : ∀ t ∈ e.items, Term.IsExplicit t) :
    Expr.IsExplicit (e.nestLeft Expr.asTerm) :=
  Chain.nestLeft_invariant (fun e hlength hitems =>
    (Expr.IsExplicit.group (e := e) ⟨hlength, hitems⟩).alone) h

mutual

theorem Factor.isExplicit_parenthesized : ∀ f : Factor, f.parenthesized.IsExplicit
  | .number v => List.forall_mem_singleton.2 trivial
  | .group e => (Expr.isExplicit_nestLeft (Expr.isExplicit_items e)).group
  | .bars e => (Expr.isExplicit_nestLeft (Expr.isExplicit_items e)).bars
  | .power b p => by
    have hp := (Factor.isExplicit_parenthesized p).alone.alone.group
    refine List.forall_mem_cons.2 ⟨⟨_, rfl⟩, List.forall_mem_append.2 ⟨?_, hp⟩⟩
    exact Factor.isExplicit_parenthesized b

theorem Term.isExplicit_items : ∀ t : Term, ∀ f ∈ t.parenthesizedItems.items, f.IsExplicit
  | .single f => List.forall_mem_singleton.2 (Factor.isExplicit_parenthesized f)
  | .cons f _ rest =>
    List.forall_mem_cons.2 ⟨Factor.isExplicit_parenthesized f, Term.isExplicit_items rest⟩

theorem Expr.isExplicit_items : ∀ e : Expr, ∀ t ∈ e.parenthesizedItems.items, Term.IsExplicit t
  | .single t => List.forall_mem_singleton.2 (Term.isExplicit_nestLeft (Term.isExplicit_items t))
  | .cons t _ rest =>
    List.forall_mem_cons.2
      ⟨Term.isExplicit_nestLeft (Term.isExplicit_items t), Expr.isExplicit_items rest⟩

end

theorem Program.isExplicit_parenthesized (p : Program) :
    ∀ n ∈ p.parenthesized.nodes, n.IsExplicit := by
  have he (e : Expr) : ∀ n ∈ .expr e.parenthesized :: e.parenthesized.parts, n.IsExplicit :=
    Expr.isExplicit_iff.1 (Expr.isExplicit_nestLeft e.isExplicit_items)
  induction p with
  | single e =>
    rw [Program.parenthesized, Program.nodes, Chain.items, List.flatMap_singleton]
    exact he e
  | cons e o rest ih =>
    rw [Program.parenthesized, Program.nodes, Chain.items, List.flatMap_cons]
    exact List.forall_mem_append.2 ⟨he e, ih⟩

/-- **Making associativity explicit keeps the meaning.** Parentheses around the first items of a
chain or around the exponent of a power, put anywhere into a program, change neither its values nor
its error, and nor does any number of them. In this way every program is led to one in which no rule
of association is left: no chain has more than one operator, and every exponent is in
parentheses. -/
theorem regrouping_keeps_meaning (p : Program) :
    (∀ q, p.Regroups q → q.eval = p.eval) ∧
    (∀ q, ReflTransGen Program.Regroups p q → q.eval = p.eval) ∧
    ReflTransGen Program.Regroups p p.parenthesized ∧
    (∀ n ∈ p.parenthesized.nodes, n.IsExplicit) ∧ p.parenthesized.eval = p.eval := by
  have hall := Program.regroups_items [] p
  exact ⟨fun q h => h.eval_eq, fun q => Program.eval_of_reflTransGen, hall,
    p.isExplicit_parenthesized, Program.eval_of_reflTransGen hall⟩

/-- `|2 ^ 3 ^ 2| - 9223372036854775807 - 514 - 600` overflows at its second `-`, also with
parentheses around its first three terms, and with all of them. -/
theorem regrouping_keeps_meaning_overflow :
    let literal (n : Int) (h : fits n = true) : Factor := .number ⟨n, h⟩
    let tower : Factor := .power (literal 2 rfl) (.power (literal 3 rfl) (literal 2 rfl))
    let bars : Term := .single (.bars (.single (.single tower)))
    let last : List (AddOp × Term) := [(.sub, .single (literal 600 rfl))]
    let first : Expr := .ofLinks bars
      [(.sub, .single (literal 9223372036854775807 rfl)), (.sub, .single (literal 514 rfl))]
    let p : Program := .single (.ofLinks first.head (first.links ++ last))
    let q : Program := .single (.ofLinks first.asTerm last)
    p.Regroups q ∧ p.eval = .error (.overflow .sub) ∧ q.eval = .error (.overflow .sub) ∧
      p.parenthesized.eval = .error (.overflow .sub) := by
  intro literal tower bars last first p q
  have h : p.Regroups q := .inExpr (.firsts first.head first.links last) .single
  have hp : p.eval = .error (.overflow .sub) := by decide +kernel
  obtain ⟨hone, -, -, -, hall⟩ := regrouping_keeps_meaning p
  exact ⟨h, hp, (hone q h).trans hp, hall.trans hp⟩

end Calculator
