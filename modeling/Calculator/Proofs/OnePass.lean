import Calculator.Proofs.Unread

/-!
# Recursive descent in one pass

The parser calls itself for everything that is nested. The automaton does without: it takes one
token after another from the lexer, and all it remembers of the tokens before is its state, with the
open brackets and the pending carets on a stack. A bracket or a caret that leads past the limit is
taken like any other, and the automaton fails once it has the token after that.

**Theorem (`scan_eq_wholeProgram`).** On every input the automaton and the parser come to the same
result, and by then both have taken the same tokens from the lexer.

The parser goes past tokens that the automaton reads (`settle_of_passes`), so the two can only
differ at the last token, and there `Grammar.wholeProgram_derives` and `Grammar.wholeProgram_stuck`
say what the parser does.
-/

namespace Calculator

open Cursor Automaton State

namespace Automaton

/-- Takes one token after another from a lexer, until one of them settles the matter or cannot be
had. -/
def scan (limit : Nat) (s : State) (l : Lexer) : EStateM.Result Error Lexer Unit :=
  match _hn : l.next with
  | .error e l' => .error (.lexical e) l'
  | .ok t l' =>
    match _hs : s.step limit t with
    | .reading s' => scan limit s' l'
    | .accepted => .ok () l'
    | .refused e => .error (.parse e) l'
termination_by l.size
decreasing_by
  have hne := ne_of_move_reading (step_eq_reading_iff.1 _hs).2
  exact (Lexer.size_of_next _hn).2 hne.2

/-- What becomes of a token once it is there. -/
def settle (limit : Nat) (s : State) (t : Token) (l : Lexer) : EStateM.Result Error Lexer Unit :=
  match s.step limit t with
  | .reading s' => scan limit s' l
  | .accepted => .ok () l
  | .refused e => .error (.parse e) l

variable {limit : Nat} {s s' : State}

theorem scan_of_error {l l' : Lexer} {e : LexicalError} (h : l.next = .error e l') :
    scan limit s l = .error (.lexical e) l' := by
  rw [scan]
  split <;> simp_all

theorem scan_of_token {l l' : Lexer} {t : Token} (h : l.next = .ok t l') :
    scan limit s l = settle limit s t l' := by
  rw [scan, settle]
  split
  · next hn => rw [h] at hn; cases hn
  · next hn =>
    rw [h] at hn
    cases hn
    split <;> simp_all

theorem settle_of_reading {t : Token} {l : Lexer} (h : s.step limit t = .reading s') :
    settle limit s t l = scan limit s' l := by
  rw [settle, h]

/-! ## Cursors and the automaton -/

theorem scan_of_fetch {c c' : Cursor} {u : Unit} (h : fetch c = .ok u c') :
    scan limit s c.lexer = settle limit s c'.current c'.lexer := by
  unfold fetch at h
  split at h
  · next t l hn =>
    cases h
    exact scan_of_token hn
  · cases h

theorem scan_of_fetch_error {c c' : Cursor} {e : Error} (h : fetch c = .error e c') :
    scan limit s c.lexer = .error e c'.lexer := by
  unfold fetch at h
  split at h
  · cases h
  · next e l hn =>
    cases h
    exact scan_of_error hn

theorem scan_of_pass {c c' : Cursor} {u : Unit} (h : pass c = .ok u c') :
    scan limit s c.lexer = settle limit s c'.current c'.lexer := by
  rw [pass_eq_fetch] at h
  exact (scan_of_fetch h :)

theorem scan_of_pass_error {c c' : Cursor} {e : Error} (h : pass c = .error e c') :
    scan limit s c.lexer = .error e c'.lexer := by
  rw [pass_eq_fetch] at h
  exact (scan_of_fetch_error h :)

/-- **The automaton goes along with a cursor.** -/
theorem settle_of_passes {c c' : Cursor} {ts : List Token} (h : Passes c ts c')
    (hr : judge limit s ts = .reading s') :
    settle limit s c.current c.lexer = settle limit s' c'.current c'.lexer := by
  induction h generalizing s with
  | refl c =>
    cases hr
    rfl
  | @step c c₁ c' ts ha _ ih =>
    rw [judge] at hr
    cases ht : s.step limit c.current with
    | reading s₁ =>
      rw [ht] at hr
      rw [settle_of_reading ht, scan_of_pass ha]
      exact ih hr
    | accepted => rw [ht] at hr; cases hr
    | refused e => rw [ht] at hr; cases hr

/-- Where the parser is stuck, the automaton fails in the same way. -/
theorem settle_of_stuck {c c' : Cursor} {e : Error} (h : Stuck limit s c e c') :
    settle limit s c.current c.lexer = .error e c'.lexer := by
  cases h with
  | refused hp hr hs => rw [settle_of_passes hp hr, settle, hs]
  | starved hp hr hs ha =>
    rw [settle_of_passes hp hr, settle_of_reading hs, scan_of_pass_error ha]

/-- The automaton takes the tokens of a program and accepts its stop. -/
theorem settle_of_derives {c c' : Cursor} {p : Program} {ts : List Token} (hp : Passes c ts c')
    (hc : c'.current = .stop) (hd : Derives limit 0 .program p (ts ++ [.stop])) :
    settle limit start c.current c.lexer = .ok () c'.lexer := by
  obtain ⟨d, rfl, hy, hd⟩ := hd
  obtain ⟨-, hdepth, hn⟩ := d.agrees
  have hts : d.tree.tokens = ts := List.append_cancel_right (d.yield_eq_tokens.1.symm.trans hy)
  obtain ⟨m, hm⟩ := trace_program d.tree hn
  have hlevels := (Program.levels_le_iff d.tree).2 (hdepth ▸ Nat.zero_add d.depth ▸ hd)
  obtain ⟨hr, hle⟩ := hm.judge_eq (Nat.zero_le limit) hlevels
  rw [Program.map_fst_levels, hts] at hr
  rw [settle_of_passes hp hr, settle, step_of_le hle, hc]
  rfl

end Automaton

/-- A result of the parser without the tree and the log. -/
def bare {α : Type} : EStateM.Result Error Cursor α → EStateM.Result Error Lexer Unit
  | .ok _ c => .ok () c.lexer
  | .error e c => .error e c.lexer

/-- **The parser and the automaton come to the same result.** -/
theorem scan_eq_wholeProgram (source : Reader) :
    scan maxNesting start { reader := source } = bare (Grammar.wholeProgram (.start source)) := by
  cases h : Grammar.wholeProgram (.start source) with
  | ok p c' =>
    obtain ⟨c₀, c₁, ts, hf, hp, hc, rfl, hd⟩ := Grammar.wholeProgram_derives h
    have hs := settle_of_derives hp hc hd
    exact (scan_of_fetch hf).trans hs
  | error e c' =>
    rcases Grammar.wholeProgram_stuck h with hf | ⟨c₀, hf, hs⟩
    · exact scan_of_fetch_error hf
    · exact (scan_of_fetch hf).trans (settle_of_stuck hs)

/-- What a scan comes to. -/
def outcome : EStateM.Result Error Lexer Unit → Except Error Unit
  | .ok _ _ => .ok ()
  | .error e _ => .error e

/-- **Recursive descent equals a one-pass automaton.** On every input, `parse` succeeds, or fails
with an error, exactly as the automaton does that takes the tokens from the left: with no tree, no
recursion and no look at a token before it is taken. At the end of both, the lexer is the same, so
neither has taken a token that the other has not. -/
theorem parse_is_one_pass (source : Reader) :
    (parse source).map (fun _ => ()) = outcome (scan maxNesting start { reader := source }) ∧
      source.final.lexer = stateOf (scan maxNesting start { reader := source }) := by
  rw [scan_eq_wholeProgram, parse, Reader.final]
  cases Grammar.wholeProgram (.start source) with
  | ok p c => exact ⟨rfl, rfl⟩
  | error e c => exact ⟨rfl, rfl⟩

end Calculator
