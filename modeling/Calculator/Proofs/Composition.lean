import Calculator.Proofs.Lexemes
import Calculator.Proofs.Reparsing

/-!
# Programs made of programs

Texts of programs can be put together without a look inside: joined by a semicolon, put into
brackets, or made the operands of an operator. What the new text means depends on what its parts
mean and on nothing else about them.

**Theorem (`sequence_of_programs`).** With a semicolon between them, the expressions of one program
come before those of the other, and so do their values.

**Theorem (`compound_of_expressions`).** In brackets, and with any operator between them, expressions
keep their values.

A part is lexed to the same tokens wherever it stands, because a mark comes right after it. The
tokens of the whole are then those of a tree that is put together in the same way, and no other tree
has them.
-/

namespace Calculator

/-- A text that is a program once a stop comes after it, and no stop comes before that. -/
structure Fragment (text : String) (p : Program) : Prop where
  parse_eq : parse (.ofString (text ++ ".")) = .ok p
  not_mem : '.' ∉ text.toList

/-- The values of a program as they are shown, or the error of the run. -/
def shown : Except RuntimeError (List Value) → Except Error String
  | .ok values => .ok (render values)
  | .error e => .error (.runtime e)

theorem interpret_of_parse {source : Reader} {p : Program} (h : parse source = .ok p) :
    interpret source = shown p.eval := by
  unfold parse at h
  unfold interpret run
  split at h
  · next p' c hw =>
    cases h
    rw [hw]
    dsimp only
    cases p.eval <;> rfl
  · cases h

/-- What a text is read as, once its tokens are those of a tree. -/
theorem interpretText_of_lexesTo {text : String} {p : Program} (hp : p.IsNormal)
    (hd : p.depth ≤ maxNesting) (h : LexesTo text.toList (p.tokens ++ [.stop])) :
    parse (.ofString text) = .ok p ∧ interpretText text = shown p.eval := by
  have hparse : parse (.ofString text) = .ok p :=
    parse_of_tokens hp hd (tokens_of_lexesTo h ▸ List.prefix_refl _)
  exact ⟨hparse, interpret_of_parse hparse⟩

namespace Fragment

variable {text : String} {p : Program}

theorem lexesTo (h : Fragment text p) : LexesTo text.toList p.tokens :=
  lexesTo_of_parse h.parse_eq h.not_mem

theorem isNormal (h : Fragment text p) : p.IsNormal := (tree_of_parse h.parse_eq).2.2.2.1

theorem depth_le (h : Fragment text p) : p.depth ≤ maxNesting := (tree_of_parse h.parse_eq).2.2.2.2

end Fragment

/-! ## Sequences -/

namespace Program

/-- The expressions of one program, and then those of another. -/
def andThen : Program → Program → Program
  | .single e, q => .cons e () q
  | .cons e o rest, q => .cons e o (andThen rest q)

variable (p q : Program)

theorem items_andThen : (p.andThen q).items = p.items ++ q.items := by
  induction p with
  | single e => rfl
  | cons e o rest ih => exact congrArg (e :: ·) ih

theorem tokens_andThen : (p.andThen q).tokens = p.tokens ++ .semicolon :: q.tokens := by
  induction p with
  | single e => rfl
  | cons e o rest ih =>
    rw [andThen, Program.tokens, ih, Program.tokens, List.append_assoc, List.cons_append]

theorem depth_andThen : (p.andThen q).depth = max p.depth q.depth := by
  induction p with
  | single e => rfl
  | cons e o rest ih => rw [andThen, Program.depth, ih, Program.depth, Nat.max_assoc]

theorem isNormal_andThen (hp : p.IsNormal) (hq : q.IsNormal) : (p.andThen q).IsNormal := by
  induction p with
  | single e => exact ⟨hp, hq⟩
  | cons e o rest ih => exact ⟨hp.1, ih hp.2⟩

/-- The first program is evaluated before the second. -/
theorem eval_andThen : (p.andThen q).eval = do
    let vs ← p.eval
    let ws ← q.eval
    return vs ++ ws := by
  rw [Program.eval, items_andThen, List.mapM_append]
  rfl

end Program

/-- **Sequencing.** Two programs with a semicolon in place of the first stop are a program: its
expressions are those of the first and then those of the second. Evaluating it gives the error of
the first if that has one, or else the error of the second, or else the values of both. -/
theorem sequence_of_programs {a b : String} {p q : Program} (ha : Fragment a p)
    (hb : Fragment b q) :
    (∃ r, parse (.ofString (a ++ ";" ++ b ++ ".")) = .ok r ∧ r.items = p.items ++ q.items) ∧
      interpretText (a ++ ";" ++ b ++ ".") = shown (do
        let vs ← p.eval
        let ws ← q.eval
        return vs ++ ws) := by
  have hlex : LexesTo (a ++ ";" ++ b ++ ".").toList ((p.andThen q).tokens ++ [.stop]) := by
    rw [Program.tokens_andThen]
    simpa using ha.lexesTo.append_mark (c := ';') rfl (hb.lexesTo.append_mark (c := '.') rfl .nil)
  have hdepth : (p.andThen q).depth ≤ maxNesting := by
    rw [Program.depth_andThen]
    exact Nat.max_le.2 ⟨ha.depth_le, hb.depth_le⟩
  obtain ⟨hparse, heval⟩ :=
    interpretText_of_lexesTo (p.isNormal_andThen q ha.isNormal hb.isNormal) hdepth hlex
  exact ⟨⟨_, hparse, p.items_andThen q⟩, heval.trans (by rw [Program.eval_andThen])⟩

/-- The first program has two expressions, and the bars of the second close before the stop. -/
theorem sequence_of_programs_bars :
    let number (n : Int) (h : fits n = true) : Term := .single (.number ⟨n, h⟩)
    let power : Term := .single (.power (.number ⟨2, rfl⟩) (.number ⟨3, rfl⟩))
    let p : Program := .cons (.single (number 7 rfl)) () (.single (.single power))
    let q : Program :=
      .single (.single (.single (.bars (.cons (number 1 rfl) .sub (.single (number 5 rfl))))))
    Fragment "7; 2 ^ 3" p ∧ Fragment "|1 - 5|" q ∧
      (∃ r, parse (.ofString "7; 2 ^ 3;|1 - 5|.") = .ok r ∧ r.items = p.items ++ q.items) ∧
      interpretText "7; 2 ^ 3;|1 - 5|." = .ok "7; 8; 4." := by
  intro number power p q
  have hp : Fragment "7; 2 ^ 3" p := ⟨by decide +kernel, by decide⟩
  have hq : Fragment "|1 - 5|" q := ⟨by decide +kernel, by decide⟩
  obtain ⟨hparse, heval⟩ := sequence_of_programs hp hq
  exact ⟨hp, hq, hparse, heval.trans (by decide +kernel)⟩

/-! ## Operators and brackets -/

/-- The token that an operator is written with. -/
def Operator.token : Operator → Token
  | .add => .plus
  | .sub => .minus
  | .mul => .times
  | .div => .slash
  | .pow => .caret

/-- Two factors with an operator between them. -/
def Operator.join : Operator → Factor → Factor → Expr
  | .add, f, g => .cons (.single f) .add (.single (.single g))
  | .sub, f, g => .cons (.single f) .sub (.single (.single g))
  | .mul, f, g => .single (.cons f .mul (.single g))
  | .div, f, g => .single (.cons f .div (.single g))
  | .pow, f, g => .single (.single (.power f g))

namespace Operator

variable (op : Operator) (f g : Factor)

theorem tokens_join : (op.join f g).tokens = f.tokens ++ op.token :: g.tokens := by
  cases op <;> simp [join, token, Expr.tokens, Term.tokens, Factor.tokens, AddOp.token, MulOp.token]

/-- The right operand of a power lies one deeper. -/
theorem depth_join_le {n : Nat} (hf : f.depth ≤ n) (hg : g.depth ≤ n)
    (hpow : op = .pow → g.depth + 1 ≤ n) : (op.join f g).depth ≤ n := by
  cases op with
  | pow => exact Nat.max_le.2 ⟨hf, hpow rfl⟩
  | _ => exact Nat.max_le.2 ⟨hf, hg⟩

theorem isNormal_join (hf : f.isPower = false) (hf' : f.IsNormal) (hg : g.IsNormal) :
    (op.join f g).IsNormal := by
  cases op with
  | pow => exact ⟨hf, hf', hg⟩
  | _ => exact ⟨hf', hg⟩

/-- The operands are evaluated from the left, and then the operator is applied. -/
theorem eval_join : (op.join f g).eval = f.eval >>= fun v => g.eval >>= op.apply v := by
  have hok (x : Except RuntimeError Value) : (x >>= .ok) = x := bind_pure x
  cases op with
  | pow => simp only [join, Expr.eval, Expr.evalFrom, Term.evalFrom, Factor.eval, hok]
  | _ =>
    simp only [join, Expr.eval, Expr.evalFrom, Term.evalFrom, hok]
    rfl

theorem lexesTo_symbol {cs : List Char} {ts : List Token} (h : LexesTo cs ts) :
    LexesTo (op.symbol.toList ++ cs) (op.token :: ts) := by
  cases op <;> exact h.mark rfl

end Operator

/-- What a text is read as, once its tokens are those of one expression. -/
theorem interpretText_of_expr {text : String} {e : Expr} (he : e.IsNormal)
    (hd : e.depth ≤ maxNesting) (h : LexesTo text.toList (e.tokens ++ [.stop])) :
    interpretText text = shown (e.eval >>= fun v => .ok [v]) := by
  have hvalues : Program.eval (.single e) = e.eval >>= fun v => .ok [v] := by
    show [e].mapM Expr.eval = _
    rw [List.mapM_cons, List.mapM_nil]
    rfl
  rw [← hvalues]
  exact (interpretText_of_lexesTo (p := .single e) he hd h).2

/-- A factor that is an expression by itself. -/
theorem Factor.eval_alone (f : Factor) : Expr.eval (.single (.single f)) = f.eval := by
  rw [Expr.eval, Expr.evalFrom, Term.evalFrom]
  exact (bind_pure _).trans (bind_pure _)

namespace Fragment

variable {text : String} {d : Expr} {rest : List Char} {us : List Token}

theorem interpretText_eq (h : Fragment text (.single d)) :
    interpretText (text ++ ".") = shown (d.eval >>= fun v => .ok [v]) := by
  refine interpretText_of_expr h.isNormal h.depth_le ?_
  rw [String.toList_append]
  exact h.lexesTo.append_mark rfl .nil

theorem lexesTo_group (h : Fragment text (.single d)) (h' : LexesTo rest us) :
    LexesTo ('(' :: (text.toList ++ ')' :: rest)) ((Factor.group d).tokens ++ us) := by
  simpa [Factor.tokens, Program.tokens] using (h.lexesTo.append_mark rfl h').mark rfl

end Fragment

/-- **Operators and brackets.** Take two programs of one expression each, not nested too deep to be
nested once more. In parentheses and with an operator between them they give the error of the first
if that has one, or else the error of the second, or else what the operator makes of their values.
Parentheses alone change nothing, and bars give the absolute value, also around expressions that
begin or end with bars. -/
theorem compound_of_expressions {a b : String} {d e : Expr} (ha : Fragment a (.single d))
    (hb : Fragment b (.single e)) (hd : d.depth < maxNesting) (he : e.depth < maxNesting) :
    (∀ op : Operator, (op = .pow → e.depth + 1 < maxNesting) →
      interpretText ("(" ++ a ++ ") " ++ op.symbol ++ " (" ++ b ++ ").") = shown (do
        let v ← d.eval
        let w ← e.eval
        let u ← op.apply v w
        return [u])) ∧
    interpretText ("(" ++ a ++ ").") = interpretText (a ++ ".") ∧
    interpretText ("|" ++ a ++ "|.") = shown (do
      let v ← d.eval
      let u ← v.abs
      return [u]) := by
  have hstop : LexesTo ['.'] [.stop] := LexesTo.nil.mark rfl
  refine ⟨fun op hpow => ?_, ?_, ?_⟩
  · have hlex : LexesTo ("(" ++ a ++ ") " ++ op.symbol ++ " (" ++ b ++ ").").toList
        ((op.join (.group d) (.group e)).tokens ++ [.stop]) := by
      -- From the right: each piece is put before characters that are known to be lexed.
      have hright := (hb.lexesTo_group hstop).blank (c := ' ') rfl
      have hleft := ha.lexesTo_group ((op.lexesTo_symbol hright).blank (c := ' ') rfl)
      rw [op.tokens_join]
      simpa using hleft
    have hdepth := op.depth_join_le (.group d) (.group e) hd he hpow
    -- What is in parentheses is no power, so it can be the base of one.
    have hnormal := op.isNormal_join (.group d) (.group e) rfl ha.isNormal hb.isNormal
    rw [interpretText_of_expr hnormal hdepth hlex, op.eval_join]
    simp only [bind_assoc]
    rfl
  · have hlex : LexesTo ("(" ++ a ++ ").").toList ((Factor.group d).tokens ++ [.stop]) := by
      simpa using ha.lexesTo_group hstop
    rw [interpretText_of_expr (e := .single (.single (.group d))) ha.isNormal hd hlex,
      Factor.eval_alone, ha.interpretText_eq]
    rfl
  · have hlex : LexesTo ("|" ++ a ++ "|.").toList ((Factor.bars d).tokens ++ [.stop]) := by
      simpa [Factor.tokens, Program.tokens] using (ha.lexesTo.append_mark rfl hstop).mark rfl
    rw [interpretText_of_expr (e := .single (.single (.bars d))) ha.isNormal hd hlex,
      Factor.eval_alone, Factor.eval, bind_assoc]
    rfl

/-- The bars around `|1 - 3|` come right next to its own. -/
theorem compound_of_expressions_bars :
    let number (n : Int) (h : fits n = true) : Term := .single (.number ⟨n, h⟩)
    let d : Expr := .single (.single (.bars (.cons (number 1 rfl) .sub (.single (number 3 rfl)))))
    let e : Expr := .cons (number 0 rfl) .sub (.single (number 1 rfl))
    Fragment "|1 - 3|" (.single d) ∧ Fragment "0 - 1" (.single e) ∧ d.depth = 1 ∧ e.depth = 0 ∧
      interpretText "(|1 - 3|) ^ (0 - 1)." = .ok "0." ∧ interpretText "(|1 - 3|)." = .ok "2." ∧
      interpretText "||1 - 3||." = .ok "2." := by
  intro number d e
  have hd : Fragment "|1 - 3|" (.single d) := ⟨by decide +kernel, by decide⟩
  have he : Fragment "0 - 1" (.single e) := ⟨by decide +kernel, by decide⟩
  obtain ⟨hop, hgroup, hbars⟩ := compound_of_expressions hd he (by decide) (by decide)
  have hpow := hop .pow fun _ => by decide
  refine ⟨hd, he, rfl, rfl, hpow.trans ?_, hgroup.trans ?_, hbars.trans ?_⟩
  · decide +kernel
  · decide +kernel
  · decide +kernel

end Calculator
