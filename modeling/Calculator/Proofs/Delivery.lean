import Calculator.Proofs.MixedCalls
import Calculator.Run

/-!
# How an input is delivered

An input is delivered in reads, and where it is cut into them says nothing about the program in it.
Two readers with the same events in the same order are told apart by no call and no run, although
they are asked different numbers of times.

**Theorem (`Lexer.Alike.calls_eq`).** Lexers with the same events to come give the same answers.

**Theorem (`delivery_makes_no_difference`).** Inputs with the same events give the same tokens,
trees, values, errors and logs.

Nothing is shown here about the functions that read. They are local, so what they do on one reader
they do on every other that gives the events they take.
-/

namespace Calculator

open Fed

/-! ## Calls -/

namespace Lexer

/-- The same events are to come, and the same character is kept. -/
structure Alike (l m : Lexer) : Prop where
  feed : Feed.Alike (feed l) (feed m)
  pushback : l.pushback = m.pushback

variable {l m : Lexer}

theorem Alike.next (h : Alike l m) :
    ∃ g, m.next = onFeed g l.next ∧ Feed.Alike (Fed.feed (stateOf l.next)) g := by
  obtain ⟨es, hes, hon⟩ := local_next l
  obtain ⟨g, hg, ha⟩ := h.feed.gives hes
  have hm : m = on l (Fed.feed m) := by
    cases m
    show _ = Lexer.mk _ l.pushback _
    rw [h.pushback]
    rfl
  refine ⟨g, ?_, ha⟩
  rw [hm]
  exact hon (Fed.feed m) g h.feed.finished.symm hg

/-- One call is answered alike, and leaves lexers that are alike. -/
theorem Alike.call (h : Alike l m) (c : Call) :
    (l.call c).1 = (m.call c).1 ∧ Alike (l.call c).2 (m.call c).2 := by
  obtain ⟨g, hm, hg⟩ := h.next
  cases hn : l.next with
  | ok t l' =>
    rw [hn] at hm hg
    rw [call_of_ok hn, call_of_ok hm]
    exact ⟨rfl, hg, rfl⟩
  | error e l' =>
    rw [hn] at hm hg
    cases c with
    | token =>
      rw [call_token_of_error hn, call_token_of_error hm]
      exact ⟨rfl, hg, rfl⟩
    | item =>
      rw [Lexer.call, Lexer.call, item_of_failed hn, item_of_failed hm]
      exact ⟨rfl, ⟨hg.events, rfl⟩, rfl⟩

/-- **Lexers that are alike give the same answers.** -/
theorem Alike.calls_eq (h : Alike l m) (cs : List Call) : (l.calls cs).1 = (m.calls cs).1 := by
  induction cs generalizing l m with
  | nil => rfl
  | cons c cs ih =>
    obtain ⟨ha, hs⟩ := h.call c
    rw [calls, calls, ha, ih hs]

end Lexer

/-! ## Runs -/

section Sources

variable {source source' : Reader}

theorem alike_of_events (h : source.events = source'.events) :
    Feed.Alike ⟨source, false⟩ ⟨source', false⟩ :=
  ⟨h, rfl⟩

/-- The two runs differ in what is left of their inputs only. -/
theorem wholeProgram_of_events (h : source.events = source'.events) :
    ∃ g, Grammar.wholeProgram (.start source') =
      onFeed g (Grammar.wholeProgram (.start source)) := by
  obtain ⟨es, hes, hon⟩ := Grammar.local_wholeProgram (.start source)
  obtain ⟨g, hg, -⟩ := (alike_of_events h).gives hes
  exact ⟨g, hon ⟨source', false⟩ g rfl hg⟩

theorem parse_of_onFeed {g : Feed} (h : Grammar.wholeProgram (.start source') =
    onFeed g (Grammar.wholeProgram (.start source))) : parse source' = parse source := by
  unfold parse
  rw [h]
  cases Grammar.wholeProgram (.start source) with
  | error e c => rfl
  | ok p c => rfl

theorem run_of_onFeed {g : Feed} (h : Grammar.wholeProgram (.start source') =
    onFeed g (Grammar.wholeProgram (.start source))) :
    run source' = { run source with unread := g.reader } := by
  unfold run
  rw [h]
  cases Grammar.wholeProgram (.start source) with
  | error e c => rfl
  | ok p c =>
    dsimp only [onFeed]
    cases p.eval with
    | error e => rfl
    | ok values => rfl

end Sources

/-- **How an input is delivered makes no difference.** Two inputs with the same bytes, failing reads
and empty reads in the same order, whatever reads the bytes come in and whichever reads are
interrupted, give the same answers to all calls, the same tree or error, the same values and the
same log. -/
theorem delivery_makes_no_difference (source source' : Reader)
    (h : source.events = source'.events) :
    (∀ cs, (Lexer.calls { reader := source } cs).1 = (Lexer.calls { reader := source' } cs).1) ∧
      parse source = parse source' ∧ interpret source = interpret source' ∧
      (run source).log = (run source').log := by
  have hl : Lexer.Alike { reader := source } { reader := source' } := ⟨alike_of_events h, rfl⟩
  obtain ⟨g, hg⟩ := wholeProgram_of_events h
  refine ⟨hl.calls_eq, (parse_of_onFeed hg).symm, ?_, ?_⟩
  · rw [interpret, interpret, run_of_onFeed hg]
  · rw [run_of_onFeed hg]

/-- The bytes of `1²` come one by one, with interruptions between them and inside the last
character, and then a read fails. -/
theorem delivery_makes_no_difference_interrupted :
    let whole : Reader := ⟨[], [.bytes [0x31, 0xc2, 0xb2], .failure "gone", .bytes []]⟩
    let cut : Reader := ⟨[], [.interrupted, .bytes [0x31], .interrupted, .bytes [0xc2],
      .interrupted, .bytes [0xb2], .interrupted, .failure "gone", .interrupted, .bytes []]⟩
    whole.events = cut.events ∧ parse whole = parse cut ∧
      (Lexer.calls { reader := cut } [.token, .token, .token, .token]).1 =
        (Lexer.calls { reader := whole } [.token, .token, .token, .token]).1 ∧
      (Lexer.calls { reader := whole } [.token, .token, .token, .token]).1 =
        [some (.ok (.number ⟨1, rfl⟩)), some (.error (.invalidCharacter '²')),
          some (.error (.readFailure "gone")), some (.ok .eof)] := by
  intro whole cut
  have he : whole.events = cut.events := by decide
  obtain ⟨hcalls, hparse, -, -⟩ := delivery_makes_no_difference whole cut he
  exact ⟨he, hparse, (hcalls _).symm, by decide +kernel⟩

end Calculator
