import Calculator.Parser.Grammar
import Calculator.Proofs.Automaton
import Calculator.Proofs.Trail

/-!
# Recursive descent

The rules of the parser against the two views of the grammar: what a rule reads is the tree of a
derivation, and where it fails the automaton is stuck as well.

**Theorem (`Grammar.conforms_factor`).** A rule for factors that may be nested `n` deep, run at
depth `k`, conforms to the limit `k + n`: it goes past the tokens of a derivation within the limit
and gives its tree, or it fails where the automaton refuses the current token, with the same error,
or where the next token cannot be had.

Each rule is looked at once for what it reads and once for where it fails. The loop that reads a
chain comes back to the same state of the automaton after every operator, so one argument serves
terms, expressions and programs. That every rule goes past a token by the move that
`Move.past` names is shown here as well, and nowhere else is it asked how a rule moves.
-/

namespace Calculator

open Cursor Automaton State

theorem Parse.bind_eq_error {α β : Type} {x : Parse α} {f : α → Parse β} {c c'' : Cursor}
    {e : Error} : (x >>= f) c = .error e c'' ↔
      x c = .error e c'' ∨ ∃ a c', x c = .ok a c' ∧ f a c' = .error e c'' := by
  show EStateM.bind x f c = .error e c'' ↔ _
  unfold EStateM.bind
  cases hx : x c with
  | ok a c' =>
    constructor
    · exact fun h => .inr ⟨a, c', rfl, h⟩
    · rintro (h | ⟨_, _, ⟨⟩, h⟩)
      · cases h
      · exact h
  | error e' c' => simp

theorem Cursor.require_eq_error {t : Token} {c c' : Cursor} {e : Error} :
    require t c = .error e c' ↔
      c.current ≠ t ∧ e = .parse (.mismatch t c.current) ∧ c = c' := by
  rw [require, Parse.get_bind]
  by_cases hc : c.current = t
  · rw [if_neg (not_not_intro hc)]
    constructor
    · intro h
      cases h
    · intro h
      exact absurd hc h.1
  · rw [if_pos hc]
    show EStateM.Result.error (Error.parse (.mismatch t c.current)) c = .error e c' ↔ _
    simp [hc, eq_comm]

/-- The phrase `a`, run at depth `k`, has a derivation with the tokens `ts` within the limit. -/
def Derives (limit k : Nat) (N : Nonterminal) (a : N.Tree) (ts : List Token) : Prop :=
  ∃ d : Derivation N, d.tree = a ∧ d.yield = ts ∧ k + d.depth ≤ limit

variable {limit k : Nat} {s : State}

/-! ## The automaton on phrases -/

theorem Derives.judge_factor {f : Factor} {ts : List Token} (h : Derives limit k .factor f ts)
    (hs : s.due = true) (hk : s.depth = k) : ∃ m, judge limit s ts = .reading (s.filled m) ∧
      (s.filled m).depth ≤ limit ∧ (f.isPower = false → m = 0) := by
  obtain ⟨d, rfl, rfl, hd⟩ := h
  obtain ⟨ht, hdepth, hn⟩ := d.agrees
  obtain ⟨m, hm, hp⟩ := trace_factor d.tree s hn hs
  have hle : s.depth ≤ limit := by omega
  have hr := hm.judge_eq hle ((Factor.levels_le_iff s.depth d.tree hle).2 (by omega))
  rw [Factor.map_fst_levels, ht] at hr
  exact ⟨m, hr.1, hr.2, hp⟩

theorem Derives.judge_term {t : Term} {ts : List Token} (h : Derives limit k .term t ts)
    (hs : s.due = true) (hc : s.carets = 0) (hk : s.depth = k) :
    ∃ m, judge limit s ts = .reading (s.filled m) ∧ (s.filled m).depth ≤ limit := by
  obtain ⟨d, rfl, rfl, hd⟩ := h
  obtain ⟨ht, hdepth, hn⟩ := d.agrees
  obtain ⟨m, hm⟩ := trace_term d.tree s hn hs hc
  have hle : s.depth ≤ limit := by omega
  have hr := hm.judge_eq hle ((Term.levels_le_iff s.depth d.tree hle).2 (by omega))
  rw [Term.map_fst_levels, ht] at hr
  exact ⟨m, hr⟩

theorem Derives.judge_expr {e : Expr} {ts : List Token} (h : Derives limit k .expr e ts)
    (hs : s.due = true) (hc : s.carets = 0) (hk : s.depth = k) :
    ∃ m, judge limit s ts = .reading (s.filled m) ∧ (s.filled m).depth ≤ limit := by
  obtain ⟨d, rfl, rfl, hd⟩ := h
  obtain ⟨ht, hdepth, hn⟩ := d.agrees
  obtain ⟨m, hm⟩ := trace_expr d.tree s hn hs hc
  have hle : s.depth ≤ limit := by omega
  have hr := hm.judge_eq hle ((Expr.levels_le_iff s.depth d.tree hle).2 (by omega))
  rw [Expr.map_fst_levels, ht] at hr
  exact ⟨m, hr⟩

/-! ## Where a parser and the automaton are stuck -/

/-- A parser at `c` fails where the automaton in state `s` is stuck: the automaton refuses the
current token, or takes it but the token after it cannot be had. -/
inductive Stuck (limit : Nat) (s : State) (c : Cursor) : Error → Cursor → Prop
  | refused {ts : List Token} {s₁ : State} {c₁ : Cursor} {e : ParseError} :
      Passes c ts c₁ → judge limit s ts = .reading s₁ →
      s₁.step limit c₁.current = .refused e → Stuck limit s c (.parse e) c₁
  | starved {ts : List Token} {s₁ s₂ : State} {c₁ c' : Cursor} {e : Error} :
      Passes c ts c₁ → judge limit s ts = .reading s₁ →
      s₁.step limit c₁.current = .reading s₂ → pass c₁ = .error e c' → Stuck limit s c e c'

theorem Stuck.after {s₁ : State} {c c₁ c' : Cursor} {ts : List Token} {e : Error}
    (hp : Passes c ts c₁) (hr : judge limit s ts = .reading s₁) (h : Stuck limit s₁ c₁ e c') :
    Stuck limit s c e c' := by
  cases h with
  | refused hp' hr' hs =>
    refine .refused (hp.trans hp') ?_ hs
    rw [judge_append, hr]
    exact hr'
  | starved hp' hr' hs ha =>
    refine .starved (hp.trans hp') ?_ hs ha
    rw [judge_append, hr]
    exact hr'

/-- Going past one more token. -/
theorem judge_snoc {s₁ s₂ : State} {ts : List Token} {t : Token}
    (hr : judge limit s ts = .reading s₁) (hs : s₁.step limit t = .reading s₂) :
    judge limit s (ts ++ [t]) = .reading s₂ := by
  rw [judge_append, hr]
  exact (judge_singleton limit s₁ t).trans hs

/-! ## Chains -/

/-- A chain with its tokens, given what tokens its items may have. -/
inductive Row {ο α : Type} (op? : Token → Option ο) (Item : α → List Token → Prop) :
    Chain ο α → List Token → Prop
  | single {a : α} {ts : List Token} : Item a ts → Row op? Item (.single a) ts
  | cons {a : α} {o : ο} {rest : Chain ο α} {t : Token} {ts us : List Token} :
      Item a ts → op? t = some o → Row op? Item rest us →
      Row op? Item (.cons a o rest) (ts ++ t :: us)

section Chains

variable {ο α : Type} {item : Rule α} {op? : Token → Option ο} {move : Move}

/-- Whether the move that a loop is told to make is the one for each of its operators. -/
def Move.Fits (move : Move) (op? : Token → Option ο) : Prop :=
  ∀ ⦃t : Token⦄ ⦃o : ο⦄, op? t = some o → past t = move

theorem Move.Fits.pass_eq (h : move.Fits op?) {c : Cursor} {o : ο} (ho : op? c.current = some o) :
    pass c = move.run c := by
  rw [Cursor.pass, h ho]

theorem Rule.readChain_ok (Item : α → List Token → Prop) (Ends : Token → Prop)
    (hitem : ∀ {c c' : Cursor} {a : α}, item.run c = .ok a c' →
      ∃ ts, Item a ts ∧ Passes c ts c' ∧ Ends c'.current)
    (hmove : move.Fits op?) {before : List (α × ο)} {c c' : Cursor} {chain : Chain ο α}
    (h : item.readChain op? move before c = .ok chain c') :
    ∃ row ts, chain = row.prepend before ∧ Row op? Item row ts ∧ Passes c ts c' ∧
      op? c'.current = none ∧ Ends c'.current := by
  fun_induction readChain item op? move before c with
  | case1 before c e c₁ hi => cases h
  | case2 before c a c₁ hi ho =>
    cases h
    obtain ⟨ts, ha, hp, he⟩ := hitem hi
    exact ⟨.single a, ts, rfl, .single ha, hp, ho, he⟩
  | case3 before c a c₁ hi o ho e c₂ ha => cases h
  | case4 before c a c₁ hi o ho u c₂ hadv ih =>
    obtain ⟨ts, ha, hp, -⟩ := hitem hi
    obtain ⟨row, us, rfl, hrow, hp', hn, he⟩ := ih h
    refine ⟨.cons a o row, ts ++ c₁.current :: us, rfl, .cons ha ho hrow, ?_, hn, he⟩
    exact hp.trans (.step ((hmove.pass_eq ho).trans hadv) hp')

theorem Rule.readChain_error
    (hok : ∀ {c c' : Cursor} {a : α}, item.run c = .ok a c' →
      ∃ ts m, Passes c ts c' ∧ judge limit s ts = .reading (s.filled m) ∧
        (s.filled m).depth ≤ limit)
    (herr : ∀ {c c' : Cursor} {e : Error}, item.run c = .error e c' → Stuck limit s c e c')
    (hop : ∀ {t : Token} {o : ο} (m : Nat), op? t = some o →
      (s.filled m).move t = .reading s)
    (hmove : move.Fits op?) {before : List (α × ο)} {c c' : Cursor} {e : Error}
    (h : item.readChain op? move before c = .error e c') : Stuck limit s c e c' := by
  fun_induction readChain item op? move before c with
  | case1 before c e c₁ hi => cases h; exact herr hi
  | case2 before c a c₁ hi ho => cases h
  | case3 before c a c₁ hi o ho e c₂ ha =>
    cases h
    obtain ⟨ts, m, hp, hr, hle⟩ := hok hi
    exact .starved hp hr ((step_of_le hle).trans (hop m ho)) ((hmove.pass_eq ho).trans ha)
  | case4 before c a c₁ hi o ho u c₂ ha ih =>
    obtain ⟨ts, m, hp, hr, hle⟩ := hok hi
    -- The operator brings the automaton back to the state it started in.
    exact (ih h).after (hp.trans (.single rfl ((hmove.pass_eq ho).trans ha)))
      (judge_snoc hr ((step_of_le hle).trans (hop m ho)))

end Chains

theorem derives_term_of_row {t : Term} {ts : List Token}
    (h : Row Token.mulOp? (Derives limit k .factor) t ts) : Derives limit k .term t ts := by
  induction h with
  | single hf =>
    obtain ⟨d, rfl, rfl, hd⟩ := hf
    exact ⟨.term d .termEnd, rfl, by simp [Derivation.yield], by simpa [Derivation.depth] using hd⟩
  | @cons f o rest t ts us hf ho _ ih =>
    obtain ⟨d, rfl, rfl, hd⟩ := hf
    obtain ⟨d', rfl, rfl, hd'⟩ := ih
    cases d' with
    | term next links =>
      simp only [Derivation.depth] at hd'
      obtain rfl := eq_token_of_mulOp? ho
      cases o with
      | mul => exact ⟨.term d (.times next links), rfl, rfl, by simp only [Derivation.depth]; omega⟩
      | div => exact ⟨.term d (.slash next links), rfl, rfl, by simp only [Derivation.depth]; omega⟩

theorem derives_expr_of_row {e : Expr} {ts : List Token}
    (h : Row Token.addOp? (Derives limit k .term) e ts) : Derives limit k .expr e ts := by
  induction h with
  | single ht =>
    obtain ⟨d, rfl, rfl, hd⟩ := ht
    exact ⟨.expr d .exprEnd, rfl, by simp [Derivation.yield], by simpa [Derivation.depth] using hd⟩
  | @cons t o rest u ts us ht ho _ ih =>
    obtain ⟨d, rfl, rfl, hd⟩ := ht
    obtain ⟨d', rfl, rfl, hd'⟩ := ih
    cases d' with
    | expr next links =>
      simp only [Derivation.depth] at hd'
      obtain rfl := eq_token_of_addOp? ho
      cases o with
      | add => exact ⟨.expr d (.plus next links), rfl, rfl, by simp only [Derivation.depth]; omega⟩
      | sub => exact ⟨.expr d (.minus next links), rfl, rfl, by simp only [Derivation.depth]; omega⟩

/-- The token between the expressions of a program. -/
def semicolon? (t : Token) : Option Unit := if t = .semicolon then some () else none

theorem eq_of_semicolon? {t : Token} {u : Unit} (h : semicolon? t = some u) : t = .semicolon := by
  unfold semicolon? at h
  split at h
  · next ht => exact ht
  · cases h

theorem derives_exprList_of_row {p : Program} {ts : List Token}
    (h : Row semicolon? (Derives limit k .expr) p ts) : Derives limit k .exprList p ts := by
  induction h with
  | single he =>
    obtain ⟨d, rfl, rfl, hd⟩ := he
    exact ⟨.exprList d .listEnd, rfl, by simp [Derivation.yield],
      by simpa [Derivation.depth] using hd⟩
  | @cons e o rest t ts us he ho _ ih =>
    obtain ⟨d, rfl, rfl, hd⟩ := he
    obtain ⟨d', rfl, rfl, hd'⟩ := ih
    cases d' with
    | exprList next links =>
      simp only [Derivation.depth] at hd'
      obtain rfl := eq_of_semicolon? ho
      exact ⟨.exprList d (.semicolon next links), rfl, rfl, by simp only [Derivation.depth]; omega⟩

/-! ## Moves

Each loop is told how to go past its operators, and each rule that opens, closes or raises expects
the token that it does so with. -/

theorem fits_mulOp : Move.advance.Fits Token.mulOp? := by
  intro t o h
  obtain rfl := eq_token_of_mulOp? h
  cases o <;> rfl

theorem fits_addOp : Move.advance.Fits Token.addOp? := by
  intro t o h
  obtain rfl := eq_token_of_addOp? h
  cases o <;> rfl

theorem fits_semicolon : (Move.expect .semicolon).Fits semicolon? := by
  intro t o h
  obtain rfl := eq_of_semicolon? h
  rfl

theorem Automaton.Bracket.past_opener (b : Bracket) : Move.past b.opener = .expect b.opener := by
  cases b <;> rfl

theorem Automaton.Bracket.past_closer (b : Bracket) : Move.past b.closer = .expect b.closer := by
  cases b <;> rfl

/-! ## Rules -/

namespace Grammar

/-- A rule for factors, run at depth `k`, keeps to the grammar and to the automaton. -/
structure Conforms (limit k : Nat) (r : Rule Factor) : Prop where
  derives {c c' : Cursor} {f : Factor} : r.run c = .ok f c' →
    ∃ ts, Derives limit k .factor f ts ∧ Passes c ts c' ∧ c'.current ≠ .caret
  stuck {s : State} {c c' : Cursor} {e : Error} : s.due = true → s.depth = k →
    r.run c = .error e c' → Stuck limit s c e c'

theorem conforms_tooDeep (hk : limit < k) : Conforms limit k .tooDeep where
  derives h := nomatch h
  stuck {s c c' e} _ hd h := by
    cases h
    exact .refused (.refl c) rfl (step_of_lt (hd ▸ hk))

section Nested

variable {inner : Rule Factor}

theorem term_derives (hi : Conforms limit k inner) {c c' : Cursor} {t : Term}
    (h : (inner.chain Token.mulOp? .advance).run c = .ok t c') :
    ∃ ts, Derives limit k .term t ts ∧ Passes c ts c' ∧
      c'.current ≠ .caret ∧ c'.current.mulOp? = none := by
  obtain ⟨row, ts, rfl, hrow, hp, ho, he⟩ :=
    Rule.readChain_ok (Derives limit k .factor) (· ≠ .caret) hi.derives fits_mulOp h
  exact ⟨ts, derives_term_of_row hrow, hp, he, ho⟩

theorem term_stuck (hi : Conforms limit k inner) (hs : s.due = true) (hc : s.carets = 0)
    (hk : s.depth = k) {c c' : Cursor} {e : Error}
    (h : (inner.chain Token.mulOp? .advance).run c = .error e c') : Stuck limit s c e c' := by
  refine Rule.readChain_error (fun hf => ?_) (hi.stuck hs hk)
    (fun m ht => move_mulOp ht hs hc m) fits_mulOp h
  obtain ⟨ts, hd, hp, -⟩ := hi.derives hf
  obtain ⟨m, hm, hle, -⟩ := hd.judge_factor hs hk
  exact ⟨ts, m, hp, hm, hle⟩

theorem expr_derives (hi : Conforms limit k inner) {c c' : Cursor} {e : Expr}
    (h : (expr inner).run c = .ok e c') :
    ∃ ts, Derives limit k .expr e ts ∧ Passes c ts c' ∧
      Nonterminal.expr.goesOn c'.current = false := by
  obtain ⟨row, ts, rfl, hrow, hp, ho, he, hm⟩ :=
    Rule.readChain_ok (Derives limit k .term) (fun t => t ≠ .caret ∧ t.mulOp? = none)
      (term_derives hi) fits_addOp h
  exact ⟨ts, derives_expr_of_row hrow, hp, by simp [Nonterminal.goesOn, he, hm, ho]⟩

theorem expr_stuck (hi : Conforms limit k inner) (hs : s.due = true) (hc : s.carets = 0)
    (hk : s.depth = k) {c c' : Cursor} {e : Error}
    (h : (expr inner).run c = .error e c') : Stuck limit s c e c' := by
  refine Rule.readChain_error (fun ht => ?_) (term_stuck hi hs hc hk)
    (fun m ht => move_addOp ht hs hc m) fits_addOp h
  obtain ⟨ts, hd, hp, -⟩ := term_derives hi ht
  obtain ⟨m, hm, hle⟩ := hd.judge_term hs hc hk
  exact ⟨ts, m, hp, hm, hle⟩

theorem enclosed_derives (hi : Conforms limit (k + 1) inner) (b : Bracket) {c c' : Cursor}
    {e : Expr} (h : enclosed inner b.opener b.closer c = .ok e c') :
    ∃ ts, Derives limit (k + 1) .expr e ts ∧
      Passes c (b.opener :: (ts ++ [b.closer])) c' := by
  obtain ⟨_, c₁, ho, h⟩ := Parse.bind_eq_ok.1 h
  obtain ⟨e, c₂, he, h⟩ := Parse.bind_eq_ok.1 h
  obtain ⟨_, c₃, hx, hp⟩ := Parse.bind_eq_ok.1 h
  obtain ⟨rfl, rfl⟩ := Parse.pure_eq_ok.1 hp
  obtain ⟨hopen, ha⟩ := (expect_eq_ok b.past_opener).1 ho
  obtain ⟨hclose, ha'⟩ := (expect_eq_ok b.past_closer).1 hx
  obtain ⟨ts, hd, hp, -⟩ := expr_derives hi he
  exact ⟨ts, hd, (Passes.single hopen ha).trans (hp.trans (.single hclose ha'))⟩

/-- After an expression in brackets only the closing bracket is accepted. -/
theorem move_of_ne_closer (s : State) (b : Bracket) (m : Nat) {t : Token}
    (ht : Nonterminal.expr.goesOn t = false) (hne : t ≠ b.closer) :
    ((s.push b).filled m).move t = .refused (.mismatch b.closer t) := by
  simp only [Nonterminal.goesOn, Bool.or_eq_false_iff, decide_eq_false_iff_not] at ht
  show ((s.push b).filled m).operator t = _
  rw [operator, if_neg ht.1.1, if_neg (by simp [ht.1.2, ht.2])]
  exact if_neg hne

theorem enclosed_stuck (hi : Conforms limit (k + 1) inner) (b : Bracket) (hs : s.due = true)
    (hk : s.depth = k) (hl : k ≤ limit) {c c' : Cursor} {e : Error} (hc : c.current = b.opener)
    (h : enclosed inner b.opener b.closer c = .error e c') : Stuck limit s c e c' := by
  have hopen : s.step limit c.current = .reading (s.push b) := by
    rw [step_of_le (hk ▸ hl), hc, move_opener b hs]
  rcases Parse.bind_eq_error.1 h with ho | ⟨_, c₁, ho, h⟩
  · rcases (expect_eq_error b.past_opener).1 ho with ⟨hne, -⟩ | ⟨-, ha⟩
    · exact absurd hc hne
    · exact .starved (.refl c) rfl hopen ha
  obtain ⟨-, ha⟩ := (expect_eq_ok b.past_opener).1 ho
  have hpush : (s.push b).depth = k + 1 := by rw [depth_push, hk]
  have hfirst : judge limit s [c.current] = .reading (s.push b) := by
    rw [judge_singleton, hopen]
  rcases Parse.bind_eq_error.1 h with he | ⟨e, c₂, he, h⟩
  · exact (expr_stuck hi rfl rfl hpush he).after (.single rfl ha) hfirst
  obtain ⟨ts, hd, hp, hg⟩ := expr_derives hi he
  obtain ⟨m, hm, hle⟩ := hd.judge_expr (s := s.push b) rfl rfl hpush
  refine Stuck.after (.single rfl ha) hfirst ?_
  rcases Parse.bind_eq_error.1 h with hx | ⟨_, _, _, hpure⟩
  · rcases (expect_eq_error b.past_closer).1 hx with ⟨hne, rfl, rfl⟩ | ⟨hcl, ha'⟩
    · exact .refused hp hm ((step_of_le hle).trans (move_of_ne_closer s b m hg hne))
    · have hclose : ((s.push b).filled m).step limit c₂.current = .reading (s.filled 0) := by
        rw [step_of_le hle, hcl, move_closer]
      exact .starved hp hm hclose ha'
  · cases hpure

theorem operand_derives (hi : Conforms limit (k + 1) inner) {c c' : Cursor} {f : Factor}
    (h : operand inner c = .ok f c') : f.isPower = false ∧ ∃ ts, Passes c ts c' ∧
      ∀ x : Derivation .exponent, k + x.depth ≤ limit →
        Derives limit k .factor (f.raised x.tree) (ts ++ x.yield) := by
  rw [operand, Parse.get_bind] at h
  cases hc : c.current with
  | number v =>
    simp only [hc] at h
    obtain ⟨_, c₁, ha, hp⟩ := Parse.bind_eq_ok.1 h
    obtain ⟨rfl, rfl⟩ := Parse.pure_eq_ok.1 hp
    have hpass := (pass_eq_advance (by rw [hc]; rfl)).trans ha
    exact ⟨rfl, _, .single hc hpass, fun x hx => ⟨.number v x, rfl, rfl, hx⟩⟩
  | leftParen =>
    simp only [hc] at h
    obtain ⟨e, c₁, he, hp⟩ := Parse.bind_eq_ok.1 h
    obtain ⟨rfl, rfl⟩ := Parse.pure_eq_ok.1 hp
    obtain ⟨ts, ⟨d, rfl, rfl, hd⟩, hp⟩ := enclosed_derives hi .paren he
    refine ⟨rfl, _, hp, fun x hx => ⟨.group d x, rfl, ?_, ?_⟩⟩
    · simp [Derivation.yield, Bracket.opener, Bracket.closer]
    · simp only [Derivation.depth]
      omega
  | bar =>
    simp only [hc] at h
    obtain ⟨e, c₁, he, hp⟩ := Parse.bind_eq_ok.1 h
    obtain ⟨rfl, rfl⟩ := Parse.pure_eq_ok.1 hp
    obtain ⟨ts, ⟨d, rfl, rfl, hd⟩, hp⟩ := enclosed_derives hi .bars he
    refine ⟨rfl, _, hp, fun x hx => ⟨.bars d x, rfl, ?_, ?_⟩⟩
    · simp [Derivation.yield, Bracket.opener, Bracket.closer]
    · simp only [Derivation.depth]
      omega
  | _ =>
    simp only [hc] at h
    cases h

theorem derives_operand {f : Factor} {ts : List Token} (hl : k ≤ limit)
    (h : ∀ x : Derivation .exponent, k + x.depth ≤ limit →
      Derives limit k .factor (f.raised x.tree) (ts ++ x.yield)) :
    Derives limit k .factor f ts := by
  simpa [Derivation.yield, Derivation.tree, Factor.raised] using h .noCaret hl

theorem operand_stuck (hi : Conforms limit (k + 1) inner) (hs : s.due = true)
    (hk : s.depth = k) (hl : k ≤ limit) {c c' : Cursor} {e : Error}
    (h : operand inner c = .error e c') : Stuck limit s c e c' := by
  rw [operand, Parse.get_bind] at h
  have hstep : ∀ t, s.step limit t = s.operand t := fun t => by
    rw [step_of_le (hk ▸ hl), move, if_pos hs]
  cases hc : c.current with
  | number v =>
    simp only [hc] at h
    rcases Parse.bind_eq_error.1 h with ha | ⟨_, _, _, hp⟩
    · have hpass := (pass_eq_advance (by rw [hc]; rfl)).trans ha
      exact .starved (.refl c) rfl (by rw [hc, hstep]; rfl) hpass
    · cases hp
  | leftParen =>
    simp only [hc] at h
    rcases Parse.bind_eq_error.1 h with he | ⟨_, _, _, hp⟩
    · exact enclosed_stuck hi .paren hs hk hl hc he
    · cases hp
  | bar =>
    simp only [hc] at h
    rcases Parse.bind_eq_error.1 h with he | ⟨_, _, _, hp⟩
    · exact enclosed_stuck hi .bars hs hk hl hc he
    · cases hp
  | _ =>
    simp only [hc] at h
    cases h
    exact .refused (.refl c) rfl (by rw [hc, hstep]; rfl)

/-- One level of nesting: what is nested one deeper conforms, so the whole does. -/
theorem conforms_factorOver (hi : Conforms limit (k + 1) inner) (hl : k ≤ limit) :
    Conforms limit k (factorOver inner) where
  derives {c c' f} h := by
    obtain ⟨base, c₁, ho, hp⟩ := Parse.bind_eq_ok.1 h
    obtain ⟨-, ts, hts, hx⟩ := operand_derives hi ho
    rw [powerOf, Parse.get_bind] at hp
    by_cases hc : c₁.current = .caret
    · rw [if_pos hc] at hp
      obtain ⟨_, c₂, hx', hp⟩ := Parse.bind_eq_ok.1 hp
      obtain ⟨p, c₃, hf, hp⟩ := Parse.bind_eq_ok.1 hp
      obtain ⟨rfl, rfl⟩ := Parse.pure_eq_ok.1 hp
      have ha := (pass_eq_expect rfl hc).trans hx'
      obtain ⟨us, ⟨d, rfl, rfl, hd⟩, hus, hne⟩ := hi.derives hf
      refine ⟨_, hx (.caret d) ?_, hts.trans ((Passes.single hc ha).trans hus), hne⟩
      simp only [Derivation.depth]
      omega
    · rw [if_neg hc] at hp
      obtain ⟨rfl, rfl⟩ := Parse.pure_eq_ok.1 hp
      exact ⟨ts, derives_operand hl hx, hts, hc⟩
  stuck {s c c' e} hs hk h := by
    rcases Parse.bind_eq_error.1 h with ho | ⟨base, c₁, ho, hp⟩
    · exact operand_stuck hi hs hk hl ho
    obtain ⟨hb, ts, hts, hx⟩ := operand_derives hi ho
    obtain ⟨m, hm, hle, h0⟩ := (derives_operand hl hx).judge_factor hs hk
    obtain rfl := h0 hb
    rw [powerOf, Parse.get_bind] at hp
    by_cases hc : c₁.current = .caret
    · rw [if_pos hc] at hp
      have hcaret : (s.filled 0).step limit c₁.current = .reading s.raise := by
        rw [step_of_le hle, hc]
        rfl
      rcases Parse.bind_eq_error.1 hp with ha | ⟨_, c₂, ha, hp⟩
      · exact .starved hts hm hcaret ((pass_eq_expect rfl hc).trans ha)
      rw [← pass_eq_expect rfl hc] at ha
      rcases Parse.bind_eq_error.1 hp with hf | ⟨_, _, _, hpure⟩
      · exact (hi.stuck rfl (by rw [depth_raise, hk]) hf).after (hts.trans (.single rfl ha))
          (judge_snoc hm hcaret)
      · cases hpure
    · rw [if_neg hc] at hp
      cases hp

end Nested

theorem conforms_factor (n : Nat) (h : k + n = limit) : Conforms limit k (factor n) := by
  induction n generalizing k with
  | zero => exact conforms_factorOver (conforms_tooDeep (by omega)) (by omega)
  | succ n ih => exact conforms_factorOver (ih (by omega)) (by omega)

/-! ## Programs -/

theorem conforms_nested : Conforms maxNesting 0 (factor maxNesting) :=
  conforms_factor maxNesting (Nat.zero_add maxNesting)

theorem program_derives {c c' : Cursor} {p : Program} (h : program.run c = .ok p c') :
    ∃ ts, Derives maxNesting 0 .exprList p ts ∧ Passes c ts c' ∧
      Nonterminal.exprList.goesOn c'.current = false := by
  obtain ⟨row, ts, rfl, hrow, hp, ho, he⟩ :=
    Rule.readChain_ok (Derives maxNesting 0 .expr) (Nonterminal.expr.goesOn · = false)
      (expr_derives conforms_nested) fits_semicolon h
  refine ⟨ts, derives_exprList_of_row hrow, hp, ?_⟩
  have hne : c'.current ≠ .semicolon := by
    intro hc
    simp [hc, semicolon?] at ho
  simpa [Nonterminal.goesOn, hne] using he

theorem program_stuck {c c' : Cursor} {e : Error} (h : program.run c = .error e c') :
    Stuck maxNesting start c e c' := by
  refine Rule.readChain_error (fun hf => ?_) (expr_stuck conforms_nested rfl rfl rfl) ?_
    fits_semicolon h
  · obtain ⟨ts, hd, hp, -⟩ := expr_derives conforms_nested hf
    obtain ⟨m, hm, hle⟩ := hd.judge_expr (s := start) rfl rfl rfl
    exact ⟨ts, m, hp, hm, hle⟩
  · intro t o m ht
    obtain rfl := eq_of_semicolon? ht
    rfl

/-- After the expressions of a program only a stop is accepted. -/
theorem move_of_ne_stop (m : Nat) {t : Token} (ht : Nonterminal.exprList.goesOn t = false)
    (hne : t ≠ .stop) : (start.filled m).move t = .refused (.mismatch .stop t) := by
  simp only [Nonterminal.goesOn, Bool.or_eq_false_iff, decide_eq_false_iff_not] at ht
  show (start.filled m).operator t = _
  rw [operator, if_neg ht.1.1.1, if_neg (by simp [ht.1.1.2, ht.1.2])]
  show (if t = .semicolon then _ else if t = .stop then _ else _) = _
  rw [if_neg ht.2, if_neg hne]

/-- A program that is read has a derivation. The parser went past all its tokens but the stop, and
did nothing after that but report the program. -/
theorem wholeProgram_derives {source : Reader} {c' : Cursor} {p : Program}
    (h : wholeProgram (.start source) = .ok p c') :
    ∃ c₀ c₁ ts, fetch (.start source) = .ok () c₀ ∧ Passes c₀ ts c₁ ∧ c₁.current = .stop ∧
      c' = { c₁ with log := .parsed p :: c₁.log } ∧
      Derives maxNesting 0 .program p (ts ++ [.stop]) := by
  obtain ⟨_, c₀, hf, h⟩ := Parse.bind_eq_ok.1 h
  obtain ⟨p', c₁, hp, h⟩ := Parse.bind_eq_ok.1 h
  obtain ⟨_, c₂, hr, h⟩ := Parse.bind_eq_ok.1 h
  obtain ⟨_, c₃, hl, h⟩ := Parse.bind_eq_ok.1 h
  obtain ⟨rfl, rfl⟩ := Parse.pure_eq_ok.1 h
  obtain ⟨hc, rfl⟩ := require_eq_ok.1 hr
  obtain ⟨ts, ⟨d, rfl, rfl, hd⟩, hts, -⟩ := program_derives hp
  cases hl
  exact ⟨c₀, c₁, d.yield, hf, hts, hc, rfl, .program d, rfl, rfl, hd⟩

/-- A program that is refused is refused by the automaton, unless its first token cannot be had. -/
theorem wholeProgram_stuck {source : Reader} {c' : Cursor} {e : Error}
    (h : wholeProgram (.start source) = .error e c') :
    fetch (.start source) = .error e c' ∨
      ∃ c₀, fetch (.start source) = .ok () c₀ ∧ Stuck maxNesting start c₀ e c' := by
  rcases Parse.bind_eq_error.1 h with hf | ⟨_, c₀, hf, h⟩
  · exact .inl hf
  refine .inr ⟨c₀, hf, ?_⟩
  rcases Parse.bind_eq_error.1 h with hp | ⟨p, c₁, hp, h⟩
  · exact program_stuck hp
  obtain ⟨ts, ⟨d, -, rfl, hd⟩, hts, hg⟩ := program_derives hp
  rcases Parse.bind_eq_error.1 h with hr | ⟨_, c₂, hr, h⟩
  · obtain ⟨hne, rfl, rfl⟩ := require_eq_error.1 hr
    obtain ⟨ht, hdepth, hn⟩ := d.agrees
    obtain ⟨m, hm⟩ := trace_program d.tree hn
    have hrun := hm.judge_eq (Nat.zero_le maxNesting)
      ((Program.levels_le_iff d.tree).2 (hdepth ▸ Nat.zero_add d.depth ▸ hd))
    rw [Program.map_fst_levels, ht] at hrun
    exact .refused hts hrun.1 ((step_of_le hrun.2).trans (move_of_ne_stop m hg hne))
  · rcases Parse.bind_eq_error.1 h with hl | ⟨_, _, _, hpure⟩
    · cases hl
    · cases hpure

end Grammar

end Calculator
