import Calculator.Proofs.Descent
import Calculator.Run
import Calculator.Tree.Equality
import Mathlib.Control.Monad.Basic

/-!
# Which inputs are programs

What `parse` makes of an input depends on its tokens alone. `Reader.refusal` reads it off them: the
automaton takes the tokens up to the one that settles the matter, and where the tokens run out
before that, the lexical error they end with decides, or else the end of the input.

**Theorem (`parse_eq_error_iff`).** The parser fails with the error that the automaton finds.

**Theorem (`parse_eq_ok_iff`).** The parser gives a tree exactly if the tokens begin with a
derivation of it within the limit. There is at most one such derivation, because programs end with
a stop and the grammar is unambiguous.
-/

namespace Calculator

open Cursor Automaton State

/-- What keeps an input from being a program. -/
def Reader.refusal (source : Reader) : Option Error :=
  match judge maxNesting start source.tokens with
  | .accepted => none
  | .refused e => some (.parse e)
  | .reading s =>
    match source.fault with
    | some e => some (.lexical e)
    | none =>
      match s.step maxNesting .eof with
      | .refused e => some (.parse e)
      | _ => none

section Ahead

variable {source : Reader} {c₀ c₁ : Cursor} {ts : List Token}

/-- What an input holds, once the parser went past some of its tokens. -/
theorem drain_of_passes (hf : fetch (.start source) = .ok () c₀) (hp : Passes c₀ ts c₁)
    (ht : .eof ∉ ts) : source.tokens = ts ++ c₁.ahead.1 ∧ source.fault = c₁.ahead.2 := by
  have h : Lexer.drain { reader := source } = (ts ++ c₁.ahead.1, c₁.ahead.2) :=
    (ahead_of_fetch hf).symm.trans (hp.ahead_eq ht)
  rw [Reader.tokens, Reader.fault, h]
  exact ⟨rfl, rfl⟩

theorem tokens_of_passes (hf : fetch (.start source) = .ok () c₀) (hp : Passes c₀ ts c₁)
    (ht : .eof ∉ ts) (hc : c₁.current ≠ .eof) :
    source.tokens = ts ++ c₁.current :: c₁.lexer.drain.1 ∧ source.fault = c₁.lexer.drain.2 := by
  rw [(drain_of_passes hf hp ht).1, (drain_of_passes hf hp ht).2, ahead_of_ne hc]
  exact ⟨rfl, rfl⟩

end Ahead

theorem refusal_of_refused {source : Reader} {ts us : List Token} {t : Token} {s : State}
    {e : ParseError} (h : source.tokens = ts ++ t :: us)
    (hr : judge maxNesting start ts = .reading s) (hs : s.step maxNesting t = .refused e) :
    source.refusal = some (.parse e) := by
  unfold Reader.refusal
  rw [h, judge_append, hr]
  simp [Verdict.andThen, judge, hs]

theorem refusal_of_stuck {source : Reader} {c₀ c' : Cursor} {e : Error}
    (hf : fetch (.start source) = .ok () c₀) (h : Stuck maxNesting start c₀ e c') :
    source.refusal = some e := by
  cases h with
  | @refused ts s₁ _ e hp hr hs =>
    have ht := (not_mem_of_reading hr).2
    by_cases hc : c'.current = .eof
    · obtain ⟨htoks, hfault⟩ := drain_of_passes hf hp ht
      rw [ahead, if_pos hc] at htoks hfault
      rw [hc] at hs
      simp [Reader.refusal, htoks, hfault, hr, hs]
    · exact refusal_of_refused (tokens_of_passes hf hp ht hc).1 hr hs
  | @starved ts s₁ s₂ c₁ _ _ hp hr hs ha =>
    obtain ⟨le, rfl, hd⟩ := drain_of_pass_error ha
    have hc := (ne_of_move_reading (step_eq_reading_iff.1 hs).2).2
    obtain ⟨htoks, hfault⟩ := tokens_of_passes hf hp (not_mem_of_reading hr).2 hc
    rw [hd] at htoks hfault
    rw [Reader.refusal, htoks, judge_append, hr]
    simp [Verdict.andThen, judge, hs, hfault]

theorem refusal_of_wholeProgram {source : Reader} {c' : Cursor} {e : Error}
    (h : Grammar.wholeProgram (.start source) = .error e c') : source.refusal = some e := by
  rcases Grammar.wholeProgram_stuck h with hf | ⟨c₀, hf, hs⟩
  · obtain ⟨le, rfl, hd⟩ := drain_of_fetch_error hf
    have htoks : source.tokens = [] := congrArg Prod.fst hd
    have hfault : source.fault = some le := congrArg Prod.snd hd
    simp [Reader.refusal, htoks, hfault, judge]
  · exact refusal_of_stuck hf hs

/-- What is read is the tree of a derivation at the beginning of the tokens. -/
theorem exists_of_wholeProgram {source : Reader} {c' : Cursor} {p : Program}
    (h : Grammar.wholeProgram (.start source) = .ok p c') :
    ∃ d : Derivation .program, d.yield <+: source.tokens ∧ d.depth ≤ maxNesting ∧ d.tree = p := by
  obtain ⟨c₀, c₁, ts, hf, hp, hc, -, d, rfl, hy, hd⟩ := Grammar.wholeProgram_derives h
  have ht : .eof ∉ ts := fun hm => d.not_mem_yield.1 (hy ▸ List.mem_append_left _ hm)
  have htoks := (tokens_of_passes hf hp ht (by simp [hc])).1
  rw [hc] at htoks
  refine ⟨d, ⟨c₁.lexer.drain.1, ?_⟩, Nat.zero_add d.depth ▸ hd, rfl⟩
  rw [hy, htoks, List.append_assoc]
  rfl

theorem refusal_eq_none_of_derivation {source : Reader} {d : Derivation .program}
    (hy : d.yield <+: source.tokens) (hd : d.depth ≤ maxNesting) : source.refusal = none := by
  unfold Reader.refusal
  rw [judge_eq_accepted_iff.2 ⟨d, hd, hy⟩]

/-- Two programs at the beginning of the same tokens are the same. -/
theorem Derivation.eq_of_prefix {d d' : Derivation .program} {ts : List Token}
    (h : d.yield <+: ts) (h' : d'.yield <+: ts) : d = d' := by
  obtain ⟨r, hr⟩ := h
  obtain ⟨r', hr'⟩ := h'
  exact (d.determined (hr.trans hr'.symm) (fun _ _ => rfl) (fun _ _ => rfl)).1

/-- The tokens of a program are those of its tree, up to a stop that is the only one. -/
theorem Derivation.yield_eq_tokens (d : Derivation .program) :
    d.yield = d.tree.tokens ++ [.stop] ∧ .stop ∉ d.tree.tokens := by
  have ht : d.tree.tokens ++ [.stop] = d.yield := d.agrees.1
  refine ⟨ht.symm, ?_⟩
  cases d with
  | program list =>
    rw [List.append_cancel_right ht]
    exact list.not_mem_yield.2 nofun

/-- **The parser fails as the automaton does.** -/
theorem parse_eq_error_iff {source : Reader} {e : Error} :
    parse source = .error e ↔ source.refusal = some e := by
  unfold parse
  cases h : Grammar.wholeProgram (.start source) with
  | ok p c' =>
    obtain ⟨d, hy, hd, -⟩ := exists_of_wholeProgram h
    simp [refusal_eq_none_of_derivation hy hd]
  | error e' c' => simp [refusal_of_wholeProgram h]

/-- **The parser reads exactly the derivations within the limit.** -/
theorem parse_eq_ok_iff {source : Reader} {p : Program} : parse source = .ok p ↔
    ∃ d : Derivation .program, d.yield <+: source.tokens ∧ d.depth ≤ maxNesting ∧ d.tree = p := by
  cases h : Grammar.wholeProgram (.start source) with
  | ok p' c' =>
    obtain ⟨d, hy, hd, rfl⟩ := exists_of_wholeProgram h
    have hok : parse source = .ok d.tree := by rw [parse, h]
    rw [hok]
    constructor
    · rintro ⟨⟩
      exact ⟨d, hy, hd, rfl⟩
    · rintro ⟨d', hy', -, rfl⟩
      rw [Derivation.eq_of_prefix hy hy']
  | error e c' =>
    have herror : parse source = .error e := by rw [parse, h]
    rw [herror]
    refine ⟨nofun, ?_⟩
    rintro ⟨d, hy, hd, -⟩
    rw [parse_eq_error_iff, refusal_eq_none_of_derivation hy hd] at herror
    cases herror

/-- What is known of a tree that is read. -/
theorem tree_of_parse {source : Reader} {p : Program} (h : parse source = .ok p) :
    p.tokens ++ [.stop] <+: source.tokens ∧ .stop ∉ p.tokens ∧ p.IsNonneg ∧ p.IsNormal ∧
      p.depth ≤ maxNesting := by
  obtain ⟨d, hy, hd, rfl⟩ := parse_eq_ok_iff.1 h
  obtain ⟨-, hdepth, hn⟩ := d.agrees
  obtain ⟨ht, hstop⟩ := d.yield_eq_tokens
  rw [ht] at hy
  refine ⟨hy, hstop, fun v hv => ?_, hn, hdepth ▸ hd⟩
  exact Lexer.nonneg_of_mem_drain (hy.subset (List.mem_append_left _ hv))

/-- **The parser accepts exactly its grammar.** It gives a tree if and only if the tokens up to the
first stop have a derivation within the limit, and then it is the tree of the only derivation there
is: its tokens are those up to the stop, no literal is negative, and no power is the base of a
power. -/
theorem parse_accepts_exactly_grammar (source : Reader) (p : Program) :
    (parse source = .ok p ↔ ∃ (ts : List Token) (d : Derivation .program),
      ts ++ [.stop] <+: source.tokens ∧ .stop ∉ ts ∧ d.yield = ts ++ [.stop] ∧
        d.depth ≤ maxNesting ∧ d.tree = p) ∧
    (parse source = .ok p →
      (∀ d d' : Derivation .program,
        d.yield <+: source.tokens → d'.yield <+: source.tokens → d = d') ∧
      p.tokens ++ [.stop] <+: source.tokens ∧ .stop ∉ p.tokens ∧
      p.IsNonneg ∧ p.IsNormal) := by
  refine ⟨⟨fun h => ?_, ?_⟩, fun h => ⟨fun d d' => Derivation.eq_of_prefix, ?_⟩⟩
  · obtain ⟨d, hy, hd, rfl⟩ := parse_eq_ok_iff.1 h
    obtain ⟨ht, hstop⟩ := d.yield_eq_tokens
    exact ⟨d.tree.tokens, d, ht ▸ hy, hstop, ht, hd, rfl⟩
  · rintro ⟨ts, d, hts, -, hy, hd, rfl⟩
    exact parse_eq_ok_iff.2 ⟨d, hy ▸ hts, hd, rfl⟩
  · obtain ⟨ht, hstop, hnonneg, hnormal, -⟩ := tree_of_parse h
    exact ⟨ht, hstop, hnonneg, hnormal⟩

/-- The bar after the caret opens, the next one closes, and what follows the stop is not read. -/
theorem parse_accepts_exactly_grammar_bars :
    ∃ p, parse (.ofString "2 ^ |3 - 4| ^ (5). |") = .ok p ∧
      p.tokens ++ [.stop] <+: (Reader.ofString "2 ^ |3 - 4| ^ (5). |").tokens ∧ p.IsNormal := by
  let difference : Expr :=
    .cons (.single (.number ⟨3, rfl⟩)) .sub (.single (.single (.number ⟨4, rfl⟩)))
  let five : Expr := .single (.single (.number ⟨5, rfl⟩))
  let power : Factor := .power (.number ⟨2, rfl⟩) (.power (.bars difference) (.group five))
  have h : parse (.ofString "2 ^ |3 - 4| ^ (5). |") = .ok (.single (.single (.single power))) := by
    decide +kernel
  obtain ⟨-, ht, -, -, hn⟩ := (parse_accepts_exactly_grammar _ _).2 h
  exact ⟨_, h, ht, hn⟩

end Calculator
