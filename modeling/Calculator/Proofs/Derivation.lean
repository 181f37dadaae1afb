import Calculator.Proofs.Shape

/-!
# Derivations

The grammar of programs, and its derivations as trees with one constructor for each production:

```text
Program      → ExprList STOP
ExprList     → Expr ExprListRest
ExprListRest → SEMICOLON Expr ExprListRest | ε
Expr         → Term ExprRest
ExprRest     → PLUS Term ExprRest | MINUS Term ExprRest | ε
Term         → Factor TermRest
TermRest     → TIMES Factor TermRest | SLASH Factor TermRest | ε
Factor       → NUMBER Exponent | LPAREN Expr RPAREN Exponent | BAR Expr BAR Exponent
Exponent     → CARET Factor | ε
```

**Theorem (`Derivation.determined`).** The grammar is unambiguous: where two derivations
of a phrase begin the same tokens, and neither could go on with what follows, they are the same
derivation. A bar is no exception, because it opens where a factor is due and only there.

**Theorem (`Derivation.exists_program_iff`).** The trees of derivations are exactly those in which
no power is the base of a power, and a derivation has the tokens and the depth of its tree.
-/

namespace Calculator

inductive Nonterminal where
  | program
  | exprList
  | exprListRest
  | expr
  | exprRest
  | term
  | termRest
  | factor
  | exponent

inductive Derivation : Nonterminal → Type
  | program (list : Derivation .exprList) : Derivation .program
  | exprList (first : Derivation .expr) (rest : Derivation .exprListRest) : Derivation .exprList
  | semicolon (next : Derivation .expr) (rest : Derivation .exprListRest) :
      Derivation .exprListRest
  | listEnd : Derivation .exprListRest
  | expr (first : Derivation .term) (rest : Derivation .exprRest) : Derivation .expr
  | plus (next : Derivation .term) (rest : Derivation .exprRest) : Derivation .exprRest
  | minus (next : Derivation .term) (rest : Derivation .exprRest) : Derivation .exprRest
  | exprEnd : Derivation .exprRest
  | term (first : Derivation .factor) (rest : Derivation .termRest) : Derivation .term
  | times (next : Derivation .factor) (rest : Derivation .termRest) : Derivation .termRest
  | slash (next : Derivation .factor) (rest : Derivation .termRest) : Derivation .termRest
  | termEnd : Derivation .termRest
  | number (value : Value) (exponent : Derivation .exponent) : Derivation .factor
  | group (inner : Derivation .expr) (exponent : Derivation .exponent) : Derivation .factor
  | bars (inner : Derivation .expr) (exponent : Derivation .exponent) : Derivation .factor
  | caret (power : Derivation .factor) : Derivation .exponent
  | noCaret : Derivation .exponent

/-- What a phrase becomes in a tree: the rests of chains are lists of links, and an exponent is
there or not. -/
abbrev Nonterminal.Tree : Nonterminal → Type
  | .program | .exprList => Program
  | .exprListRest => List (Unit × Expr)
  | .expr => Expr
  | .exprRest => List (AddOp × Term)
  | .term => Term
  | .termRest => List (MulOp × Factor)
  | .factor => Factor
  | .exponent => Option Factor

/-- A factor with the exponent after it, if there is one. -/
def Factor.raised (base : Factor) : Option Factor → Factor
  | none => base
  | some p => .power base p

namespace Derivation

/-- The tokens a derivation produces. -/
def yield {N : Nonterminal} : Derivation N → List Token
  | program list => list.yield ++ [.stop]
  | exprList first rest => first.yield ++ rest.yield
  | semicolon next rest => .semicolon :: (next.yield ++ rest.yield)
  | expr first rest => first.yield ++ rest.yield
  | plus next rest => .plus :: (next.yield ++ rest.yield)
  | minus next rest => .minus :: (next.yield ++ rest.yield)
  | term first rest => first.yield ++ rest.yield
  | times next rest => .times :: (next.yield ++ rest.yield)
  | slash next rest => .slash :: (next.yield ++ rest.yield)
  | number v x => .number v :: x.yield
  | group inner x => .leftParen :: (inner.yield ++ .rightParen :: x.yield)
  | bars inner x => .bar :: (inner.yield ++ .bar :: x.yield)
  | caret power => .caret :: power.yield
  | listEnd | exprEnd | termEnd | noCaret => []

/-- How many parentheses, bars and carets lie around the most deeply nested factor. -/
def depth {N : Nonterminal} : Derivation N → Nat
  | program list => list.depth
  | exprList first rest => max first.depth rest.depth
  | semicolon next rest => max next.depth rest.depth
  | expr first rest => max first.depth rest.depth
  | plus next rest => max next.depth rest.depth
  | minus next rest => max next.depth rest.depth
  | term first rest => max first.depth rest.depth
  | times next rest => max next.depth rest.depth
  | slash next rest => max next.depth rest.depth
  | number _ x => x.depth
  | group inner x => max (inner.depth + 1) x.depth
  | bars inner x => max (inner.depth + 1) x.depth
  | caret power => power.depth + 1
  | listEnd | exprEnd | termEnd | noCaret => 0

/-- The tree of a derivation. -/
def tree {N : Nonterminal} : Derivation N → N.Tree
  | program list => list.tree
  | exprList first rest => Chain.ofLinks first.tree rest.tree
  | semicolon next rest => ((), next.tree) :: rest.tree
  | expr first rest => Chain.ofLinks first.tree rest.tree
  | plus next rest => (.add, next.tree) :: rest.tree
  | minus next rest => (.sub, next.tree) :: rest.tree
  | term first rest => Chain.ofLinks first.tree rest.tree
  | times next rest => (.mul, next.tree) :: rest.tree
  | slash next rest => (.div, next.tree) :: rest.tree
  | number v x => Factor.raised (.number v) x.tree
  | group inner x => Factor.raised (.group inner.tree) x.tree
  | bars inner x => Factor.raised (.bars inner.tree) x.tree
  | caret power => some power.tree
  | listEnd | exprEnd | termEnd => []
  | noCaret => none

end Derivation

/-! ## Unambiguity -/

/-- Whether a token after a phrase could still belong to it. -/
def Nonterminal.goesOn : Nonterminal → Token → Bool
  | .program, _ => false
  | .exprList, t | .exprListRest, t =>
    t = .caret || t.mulOp?.isSome || t.addOp?.isSome || t = .semicolon
  | .expr, t | .exprRest, t => t = .caret || t.mulOp?.isSome || t.addOp?.isSome
  | .term, t | .termRest, t => t = .caret || t.mulOp?.isSome
  | .factor, t | .exponent, t => t = .caret

/-- A phrase cannot go on with the tokens after it. -/
def Nonterminal.EndsBefore (N : Nonterminal) (ts : List Token) : Prop :=
  ∀ t ∈ ts.head?, N.goesOn t = false

namespace Derivation

open Nonterminal

theorem endsBefore_cons {N : Nonterminal} {t : Token} {ts : List Token} (h : N.goesOn t = false) :
    N.EndsBefore (t :: ts) := by
  simpa [EndsBefore] using h

theorem goesOn_eq_false_of_cons {N : Nonterminal} {t : Token} {ts r : List Token}
    (hr : N.EndsBefore r) (h : t :: ts = r) : N.goesOn t = false :=
  hr t (by rw [← h]; rfl)

/-- An expression ends where the rest of its list begins. -/
theorem expr_endsBefore {r : List Token} (rest : Derivation .exprListRest)
    (hr : exprListRest.EndsBefore r) : Nonterminal.expr.EndsBefore (rest.yield ++ r) := by
  cases rest with
  | semicolon next rest => exact endsBefore_cons rfl
  | listEnd =>
    intro t ht
    have := hr t ht
    simp_all [goesOn]

/-- A term ends where the rest of its expression begins. -/
theorem term_endsBefore {r : List Token} (rest : Derivation .exprRest)
    (hr : exprRest.EndsBefore r) : Nonterminal.term.EndsBefore (rest.yield ++ r) := by
  cases rest with
  | plus next rest => exact endsBefore_cons rfl
  | minus next rest => exact endsBefore_cons rfl
  | exprEnd =>
    intro t ht
    have := hr t ht
    simp_all [goesOn]

/-- A factor ends where the rest of its term begins. -/
theorem factor_endsBefore {r : List Token} (rest : Derivation .termRest)
    (hr : termRest.EndsBefore r) : Nonterminal.factor.EndsBefore (rest.yield ++ r) := by
  cases rest with
  | times next rest => exact endsBefore_cons rfl
  | slash next rest => exact endsBefore_cons rfl
  | termEnd =>
    intro t ht
    have := hr t ht
    simp_all [goesOn]

/-- No other derivation begins the tokens that this one begins. -/
def Determined {N : Nonterminal} (d : Derivation N) : Prop :=
  ∀ {d' : Derivation N} {r r' : List Token}, d.yield ++ r = d'.yield ++ r' →
    N.EndsBefore r → N.EndsBefore r' → d = d' ∧ r = r'

/-- Two parts in a row are determined if each is and the first ends where the second begins. -/
theorem Determined.parts {M N : Nonterminal} {first first' : Derivation M}
    {rest rest' : Derivation N} {r r' : List Token} (hfirst : first.Determined)
    (hrest : rest.Determined)
    (ends : ∀ {r : List Token} (d : Derivation N), N.EndsBefore r → M.EndsBefore (d.yield ++ r))
    (h : first.yield ++ rest.yield ++ r = first'.yield ++ rest'.yield ++ r')
    (hr : N.EndsBefore r) (hr' : N.EndsBefore r') : first = first' ∧ rest = rest' ∧ r = r' := by
  rw [List.append_assoc, List.append_assoc] at h
  obtain ⟨rfl, h₁⟩ := hfirst h (ends rest hr) (ends rest' hr')
  obtain ⟨rfl, h₂⟩ := hrest h₁ hr hr'
  exact ⟨rfl, rfl, h₂⟩

/-- An expression between two tokens is determined, and so is the exponent after it. -/
theorem Determined.enclosed {inner inner' : Derivation .expr} {x x' : Derivation .exponent}
    {closer : Token} {r r' : List Token} (hinner : inner.Determined) (hx : x.Determined)
    (hc : Nonterminal.expr.goesOn closer = false)
    (h : inner.yield ++ closer :: x.yield ++ r = inner'.yield ++ closer :: x'.yield ++ r')
    (hr : exponent.EndsBefore r) (hr' : exponent.EndsBefore r') :
    inner = inner' ∧ x = x' ∧ r = r' := by
  simp only [List.append_assoc, List.cons_append] at h
  obtain ⟨rfl, h₁⟩ := hinner h (endsBefore_cons hc) (endsBefore_cons hc)
  obtain ⟨rfl, h₂⟩ := hx (List.cons.inj h₁).2 hr hr'
  exact ⟨rfl, rfl, h₂⟩

/-- **The grammar is unambiguous.** The first token of a phrase tells its production, and each
part of it ends where the next begins. -/
theorem determined {N : Nonterminal} (d : Derivation N) : d.Determined := by
  intro d' r r' h hr hr'
  induction d generalizing r r' with
  | program list ih =>
    obtain ⟨list'⟩ := d'
    simp only [yield, List.append_assoc, List.singleton_append] at h
    obtain ⟨rfl, hs⟩ := ih h (endsBefore_cons rfl) (endsBefore_cons rfl)
    exact ⟨rfl, (List.cons.inj hs).2⟩
  | exprList first rest ih ih' =>
    cases d' with
    | exprList first' rest' =>
      obtain ⟨rfl, rfl, h₁⟩ := Determined.parts ih ih' expr_endsBefore h hr hr'
      exact ⟨rfl, h₁⟩
  | semicolon next rest ih ih' =>
    cases d' with
    | semicolon next' rest' =>
      obtain ⟨rfl, rfl, h₁⟩ :=
        Determined.parts ih ih' expr_endsBefore (List.cons.inj h).2 hr hr'
      exact ⟨rfl, h₁⟩
    | listEnd => exact nomatch goesOn_eq_false_of_cons hr' h
  | listEnd =>
    cases d' with
    | semicolon next' rest' => exact nomatch goesOn_eq_false_of_cons hr h.symm
    | listEnd => exact ⟨rfl, h⟩
  | expr first rest ih ih' =>
    cases d' with
    | expr first' rest' =>
      obtain ⟨rfl, rfl, h₁⟩ := Determined.parts ih ih' term_endsBefore h hr hr'
      exact ⟨rfl, h₁⟩
  | plus next rest ih ih' =>
    cases d' with
    | plus next' rest' =>
      obtain ⟨rfl, rfl, h₁⟩ :=
        Determined.parts ih ih' term_endsBefore (List.cons.inj h).2 hr hr'
      exact ⟨rfl, h₁⟩
    | minus next' rest' => exact nomatch (List.cons.inj h).1
    | exprEnd => exact nomatch goesOn_eq_false_of_cons hr' h
  | minus next rest ih ih' =>
    cases d' with
    | minus next' rest' =>
      obtain ⟨rfl, rfl, h₁⟩ :=
        Determined.parts ih ih' term_endsBefore (List.cons.inj h).2 hr hr'
      exact ⟨rfl, h₁⟩
    | plus next' rest' => exact nomatch (List.cons.inj h).1
    | exprEnd => exact nomatch goesOn_eq_false_of_cons hr' h
  | exprEnd =>
    cases d' with
    | plus next' rest' | minus next' rest' => exact nomatch goesOn_eq_false_of_cons hr h.symm
    | exprEnd => exact ⟨rfl, h⟩
  | term first rest ih ih' =>
    cases d' with
    | term first' rest' =>
      obtain ⟨rfl, rfl, h₁⟩ := Determined.parts ih ih' factor_endsBefore h hr hr'
      exact ⟨rfl, h₁⟩
  | times next rest ih ih' =>
    cases d' with
    | times next' rest' =>
      obtain ⟨rfl, rfl, h₁⟩ :=
        Determined.parts ih ih' factor_endsBefore (List.cons.inj h).2 hr hr'
      exact ⟨rfl, h₁⟩
    | slash next' rest' => exact nomatch (List.cons.inj h).1
    | termEnd => exact nomatch goesOn_eq_false_of_cons hr' h
  | slash next rest ih ih' =>
    cases d' with
    | slash next' rest' =>
      obtain ⟨rfl, rfl, h₁⟩ :=
        Determined.parts ih ih' factor_endsBefore (List.cons.inj h).2 hr hr'
      exact ⟨rfl, h₁⟩
    | times next' rest' => exact nomatch (List.cons.inj h).1
    | termEnd => exact nomatch goesOn_eq_false_of_cons hr' h
  | termEnd =>
    cases d' with
    | times next' rest' | slash next' rest' => exact nomatch goesOn_eq_false_of_cons hr h.symm
    | termEnd => exact ⟨rfl, h⟩
  | number v x ih =>
    cases d' with
    | number v' x' =>
      obtain ⟨hv, h₁⟩ := List.cons.inj h
      cases hv
      obtain ⟨rfl, h₂⟩ := ih h₁ hr hr'
      exact ⟨rfl, h₂⟩
    | group inner' x' | bars inner' x' => exact nomatch (List.cons.inj h).1
  | group inner x ih ih' =>
    cases d' with
    | group inner' x' =>
      obtain ⟨rfl, rfl, h₁⟩ := Determined.enclosed ih ih' rfl (List.cons.inj h).2 hr hr'
      exact ⟨rfl, h₁⟩
    | number v' x' | bars inner' x' => exact nomatch (List.cons.inj h).1
  | bars inner x ih ih' =>
    cases d' with
    | bars inner' x' =>
      obtain ⟨rfl, rfl, h₁⟩ := Determined.enclosed ih ih' rfl (List.cons.inj h).2 hr hr'
      exact ⟨rfl, h₁⟩
    | number v' x' | group inner' x' => exact nomatch (List.cons.inj h).1
  | caret power ih =>
    cases d' with
    | caret power' =>
      obtain ⟨rfl, h₁⟩ := ih (List.cons.inj h).2 hr hr'
      exact ⟨rfl, h₁⟩
    | noCaret => exact nomatch goesOn_eq_false_of_cons hr' h
  | noCaret =>
    cases d' with
    | caret power' => exact nomatch goesOn_eq_false_of_cons hr h.symm
    | noCaret => exact ⟨rfl, h⟩

/-- The end of the input is no token of the grammar, and a stop only ends a whole program. -/
theorem not_mem_yield {N : Nonterminal} (d : Derivation N) :
    .eof ∉ d.yield ∧ (N ≠ .program → .stop ∉ d.yield) := by
  induction d with
  | program list ih => simpa [yield] using ih.1
  | _ => simp_all [yield]

/-! ## Derivations and trees -/

/-- A tree with the tokens `ts` and the depth `n` and no power as a base. What follows an item, be
it the rest of a chain or an exponent, makes such a tree of every item it may follow. -/
def Agrees : {N : Nonterminal} → N.Tree → List Token → Nat → Prop
  | .program, p, ts, n => Program.tokens p ++ [.stop] = ts ∧ Program.depth p = n ∧
      Program.IsNormal p
  | .exprList, p, ts, n => Program.tokens p = ts ∧ Program.depth p = n ∧ Program.IsNormal p
  | .exprListRest, links, ts, n => ∀ e : Expr, e.IsNormal →
      Program.tokens (.ofLinks e links) = e.tokens ++ ts ∧
      Program.depth (.ofLinks e links) = max e.depth n ∧ Program.IsNormal (.ofLinks e links)
  | .expr, e, ts, n => Expr.tokens e = ts ∧ Expr.depth e = n ∧ Expr.IsNormal e
  | .exprRest, links, ts, n => ∀ t : Term, t.IsNormal →
      Expr.tokens (.ofLinks t links) = t.tokens ++ ts ∧
      Expr.depth (.ofLinks t links) = max t.depth n ∧ Expr.IsNormal (.ofLinks t links)
  | .term, t, ts, n => Term.tokens t = ts ∧ Term.depth t = n ∧ Term.IsNormal t
  | .termRest, links, ts, n => ∀ f : Factor, f.IsNormal →
      Term.tokens (.ofLinks f links) = f.tokens ++ ts ∧
      Term.depth (.ofLinks f links) = max f.depth n ∧ Term.IsNormal (.ofLinks f links)
  | .factor, f, ts, n => Factor.tokens f = ts ∧ Factor.depth f = n ∧ Factor.IsNormal f
  | .exponent, x, ts, n => ∀ b : Factor, b.isPower = false → b.IsNormal →
      (b.raised x).tokens = b.tokens ++ ts ∧ (b.raised x).depth = max b.depth n ∧
      (b.raised x).IsNormal

/-- A derivation has the tokens and the depth of its tree. -/
theorem agrees {N : Nonterminal} (d : Derivation N) : Agrees d.tree d.yield d.depth := by
  induction d with
  | program list ih => exact ⟨by rw [yield, ← ih.1]; rfl, ih.2⟩
  | exprList first rest ih ih' =>
    obtain ⟨h₁, h₂, h₃⟩ := ih
    simpa [Agrees, tree, yield, depth, h₁, h₂] using ih' _ h₃
  | semicolon next rest ih ih' =>
    intro e he
    obtain ⟨h₁, h₂, h₃⟩ := ih
    obtain ⟨k₁, k₂, k₃⟩ := ih' _ h₃
    refine ⟨?_, ?_, he, k₃⟩
    · simp [Chain.ofLinks, tree, Program.tokens, yield, k₁, h₁]
    · simp [Chain.ofLinks, tree, Program.depth, depth, k₂, h₂]
  | listEnd =>
    intro e he
    exact ⟨by simp [Chain.ofLinks, tree, Program.tokens, yield],
      by simp [Chain.ofLinks, tree, Program.depth, depth], he⟩
  | expr first rest ih ih' =>
    obtain ⟨h₁, h₂, h₃⟩ := ih
    simpa [Agrees, tree, yield, depth, h₁, h₂] using ih' _ h₃
  | plus next rest ih ih' | minus next rest ih ih' =>
    intro t ht
    obtain ⟨h₁, h₂, h₃⟩ := ih
    obtain ⟨k₁, k₂, k₃⟩ := ih' _ h₃
    refine ⟨?_, ?_, ht, k₃⟩
    · simp [Chain.ofLinks, tree, Expr.tokens, AddOp.token, yield, k₁, h₁]
    · simp [Chain.ofLinks, tree, Expr.depth, depth, k₂, h₂]
  | exprEnd =>
    intro t ht
    exact ⟨by simp [Chain.ofLinks, tree, Expr.tokens, yield],
      by simp [Chain.ofLinks, tree, Expr.depth, depth], ht⟩
  | term first rest ih ih' =>
    obtain ⟨h₁, h₂, h₃⟩ := ih
    simpa [Agrees, tree, yield, depth, h₁, h₂] using ih' _ h₃
  | times next rest ih ih' | slash next rest ih ih' =>
    intro f hf
    obtain ⟨h₁, h₂, h₃⟩ := ih
    obtain ⟨k₁, k₂, k₃⟩ := ih' _ h₃
    refine ⟨?_, ?_, hf, k₃⟩
    · simp [Chain.ofLinks, tree, Term.tokens, MulOp.token, yield, k₁, h₁]
    · simp [Chain.ofLinks, tree, Term.depth, depth, k₂, h₂]
  | termEnd =>
    intro f hf
    exact ⟨by simp [Chain.ofLinks, tree, Term.tokens, yield],
      by simp [Chain.ofLinks, tree, Term.depth, depth], hf⟩
  | number v x ih =>
    simpa [Agrees, tree, yield, depth, Factor.tokens, Factor.depth] using ih (.number v) rfl trivial
  | group inner x ih ih' =>
    obtain ⟨h₁, h₂, h₃⟩ := ih
    simpa [Agrees, tree, yield, depth, Factor.tokens, Factor.depth, h₁, h₂]
      using ih' (.group inner.tree) rfl h₃
  | bars inner x ih ih' =>
    obtain ⟨h₁, h₂, h₃⟩ := ih
    simpa [Agrees, tree, yield, depth, Factor.tokens, Factor.depth, h₁, h₂]
      using ih' (.bars inner.tree) rfl h₃
  | caret power ih =>
    intro b hb hn
    obtain ⟨h₁, h₂, h₃⟩ := ih
    exact ⟨by simp [tree, Factor.raised, Factor.tokens, yield, h₁],
      by simp [tree, Factor.raised, Factor.depth, depth, h₂], hb, hn, h₃⟩
  | noCaret =>
    intro b hb hn
    exact ⟨by simp [tree, Factor.raised, yield], by simp [tree, Factor.raised, depth], hn⟩

mutual

theorem exists_factor : ∀ f : Factor, f.IsNormal → ∃ d : Derivation .factor, d.tree = f
  | .number v, _ => ⟨.number v .noCaret, rfl⟩
  | .group e, h => by
    obtain ⟨d, rfl⟩ := exists_expr e h
    exact ⟨.group d .noCaret, rfl⟩
  | .bars e, h => by
    obtain ⟨d, rfl⟩ := exists_expr e h
    exact ⟨.bars d .noCaret, rfl⟩
  | .power (.number v) p, h => by
    obtain ⟨d, rfl⟩ := exists_factor p h.2.2
    exact ⟨.number v (.caret d), rfl⟩
  | .power (.group e) p, h => by
    obtain ⟨d, rfl⟩ := exists_factor p h.2.2
    obtain ⟨d', rfl⟩ := exists_expr e h.2.1
    exact ⟨.group d' (.caret d), rfl⟩
  | .power (.bars e) p, h => by
    obtain ⟨d, rfl⟩ := exists_factor p h.2.2
    obtain ⟨d', rfl⟩ := exists_expr e h.2.1
    exact ⟨.bars d' (.caret d), rfl⟩
  | .power (.power _ _) _, h => nomatch h.1

theorem exists_term : ∀ t : Term, t.IsNormal → ∃ d : Derivation .term, d.tree = t
  | .single f, h => by
    obtain ⟨d, rfl⟩ := exists_factor f h
    exact ⟨.term d .termEnd, rfl⟩
  | .cons f o rest, h => by
    obtain ⟨d, rfl⟩ := exists_factor f h.1
    obtain ⟨d', rfl⟩ := exists_term rest h.2
    cases d' with
    | term next links =>
      cases o with
      | mul => exact ⟨.term d (.times next links), rfl⟩
      | div => exact ⟨.term d (.slash next links), rfl⟩

theorem exists_expr : ∀ e : Expr, e.IsNormal → ∃ d : Derivation .expr, d.tree = e
  | .single t, h => by
    obtain ⟨d, rfl⟩ := exists_term t h
    exact ⟨.expr d .exprEnd, rfl⟩
  | .cons t o rest, h => by
    obtain ⟨d, rfl⟩ := exists_term t h.1
    obtain ⟨d', rfl⟩ := exists_expr rest h.2
    cases d' with
    | expr next links =>
      cases o with
      | add => exact ⟨.expr d (.plus next links), rfl⟩
      | sub => exact ⟨.expr d (.minus next links), rfl⟩

end

theorem exists_exprList (p : Program) (h : p.IsNormal) :
    ∃ d : Derivation .exprList, d.tree = p := by
  induction p with
  | single e =>
    obtain ⟨d, rfl⟩ := exists_expr e h
    exact ⟨.exprList d .listEnd, rfl⟩
  | cons e o rest ih =>
    obtain ⟨d, rfl⟩ := exists_expr e h.1
    obtain ⟨d', rfl⟩ := ih h.2
    cases d' with
    | exprList next links => exact ⟨.exprList d (.semicolon next links), rfl⟩

theorem exists_program_iff {p : Program} :
    (∃ d : Derivation .program, d.tree = p) ↔ p.IsNormal := by
  constructor
  · rintro ⟨d, rfl⟩
    exact d.agrees.2.2
  · intro h
    obtain ⟨d, rfl⟩ := exists_exprList p h
    exact ⟨.program d, rfl⟩

end Derivation

end Calculator
