import Calculator.Proofs.Acceptance
import Calculator.Proofs.Delivery

/-!
# What a parser leaves unread

A parser looks one token ahead and its lexer one character, and yet nothing after the stop of a
program is taken from the input. A stop needs no character after it to be told, and one that ends a
literal is kept and given by the next call. The parser in turn checks for the stop without going
past it.

**Theorem (`Lexer.gives_of_stop`).** When a call gives a stop, its byte is the last one taken.

**Theorem (`heard_final`).** A parser asks for no token after a stop, the end of the input or an
error.

**Theorem (`parse_leaves_rest_unread`).** All that comes after the stop of a program can be
replaced.

Reading a program is local, so it is enough to know which events are taken: those up to the byte of
the stop. `Feed.Gives.replace_rest` finds that byte in a read, and puts something else after it.
-/

namespace Calculator

open Fed Cursor Automaton

/-! ## The rest of an input -/

namespace Reader

/-- Interrupted reads are passed over. -/
theorem event_skip (n : Nat) (reads : List Read) :
    event ⟨[], List.replicate n .interrupted ++ reads⟩ = event ⟨[], reads⟩ := by
  induction n with
  | zero => rfl
  | succ n ih => exact ih

/-- Where a byte or a failure comes from when no byte is at hand. -/
theorem event_unbuffered {reads : List Read} {e : Event} {r : Reader}
    (h : event ⟨[], reads⟩ = (e, r)) (he : e ≠ .ended) :
    ∃ n read, reads = List.replicate n .interrupted ++ read :: r.upcoming ∧
      ((∃ b, e = .byte b ∧ read = .bytes (b :: r.buffered)) ∨
        ∃ reason, e = .failure reason ∧ read = .failure reason ∧ r.buffered = []) := by
  induction reads with
  | nil =>
    cases h
    exact absurd rfl he
  | cons read reads ih =>
    cases read with
    | bytes bs =>
      cases bs with
      | nil =>
        cases h
        exact absurd rfl he
      | cons b bs =>
        cases h
        exact ⟨0, _, rfl, .inl ⟨b, rfl, rfl⟩⟩
    | failure reason =>
      cases h
      exact ⟨0, _, rfl, .inr ⟨reason, rfl, rfl, rfl⟩⟩
    | interrupted =>
      obtain ⟨n, read, rfl, hread⟩ := ih h
      exact ⟨n + 1, read, rfl, hread⟩

end Reader

namespace Feed

variable {r rest : Reader} {es : List Event} {b : UInt8}

/-- Where the last of some bytes was, among those at hand or in a read to come. Whatever is put in
the place of all that comes after it, the same events lead there. -/
theorem Gives.replace_rest (h : Gives ⟨r, false⟩ (es ++ [.byte b]) ⟨rest, false⟩) :
    (∃ head, r = ⟨head ++ b :: rest.buffered, rest.upcoming⟩ ∧ ∀ q : Reader,
      Gives ⟨⟨head ++ b :: q.buffered, q.upcoming⟩, false⟩ (es ++ [.byte b]) ⟨q, false⟩) ∨
    ∃ taken head, r.upcoming = taken ++ .bytes (head ++ b :: rest.buffered) :: rest.upcoming ∧
      ∀ q : Reader, Gives ⟨⟨r.buffered, taken ++ .bytes (head ++ b :: q.buffered) :: q.upcoming⟩,
        false⟩ (es ++ [.byte b]) ⟨q, false⟩ := by
  induction es generalizing r with
  | nil =>
    obtain ⟨-, hb, hrest⟩ := gives_cons_iff.1 h
    cases gives_nil_iff.1 hrest
    obtain ⟨buffered, upcoming⟩ := r
    cases buffered with
    | cons c bs =>
      cases hb
      exact .inl ⟨[], rfl, fun q => .single rfl⟩
    | nil =>
      obtain ⟨n, read, hreads, ⟨c, hc, rfl⟩ | ⟨reason, hc, -⟩⟩ :=
        Reader.event_unbuffered (Prod.ext hb rfl) nofun
      · cases hc
        refine .inr ⟨List.replicate n .interrupted, [], hreads, fun q => .single ?_⟩
        rw [Reader.event_skip]
        rfl
      · cases hc
  | cons e es ih =>
    obtain ⟨-, he, hrest⟩ := gives_cons_iff.1 h
    have hne : e ≠ .ended := by
      rintro rfl
      cases es <;> cases hrest.eq_nil rfl
    have hne' : decide (e = .ended) = false := decide_eq_false hne
    rw [hne'] at hrest
    obtain ⟨buffered, upcoming⟩ := r
    cases buffered with
    | cons c bs =>
      cases he
      rcases ih hrest with ⟨head, hr, hq⟩ | ⟨taken, head, hr, hq⟩
      · cases hr
        exact .inl ⟨c :: head, rfl, fun q => .step rfl (hq q)⟩
      · exact .inr ⟨taken, head, hr, fun q => .step rfl (hq q)⟩
    | nil =>
      generalize hr₁ : (Reader.event ⟨[], upcoming⟩).2 = r₁ at hrest
      obtain ⟨n, read, rfl, hread⟩ := Reader.event_unbuffered (Prod.ext he hr₁) hne
      rcases ih hrest with ⟨head, rfl, hq⟩ | ⟨taken, head, hr, hq⟩
      · -- The byte is in the read that was just made.
        obtain ⟨c, rfl, rfl⟩ | ⟨reason, -, -, hb⟩ := hread
        · refine .inr ⟨List.replicate n .interrupted, c :: head, rfl, fun q => .step ?_ (hq q)⟩
          rw [Reader.event_skip]
          rfl
        · cases head <;> cases hb
      · have hevent (reads : List Read) :
            Reader.event ⟨[], List.replicate n .interrupted ++ read :: reads⟩ =
              (e, ⟨r₁.buffered, reads⟩) := by
          rw [Reader.event_skip]
          obtain ⟨c, rfl, rfl⟩ | ⟨reason, rfl, rfl, hb⟩ := hread
          · rfl
          · rw [hb]
            rfl
        refine .inr ⟨List.replicate n .interrupted ++ read :: taken, head, ?_, fun q => ?_⟩
        · rw [hr, List.append_assoc]
          rfl
        · rw [List.append_assoc]
          exact .step (hevent _) (hne' ▸ hq q)

end Feed

/-! ## The last byte -/

/-- The events end with the bytes of a character. -/
def EndsWith (es : List Event) (c : Char) : Prop := (String.utf8EncodeChar c).map .byte <:+ es

namespace Lexer

variable {l l' : Lexer} {c : Char}

/-- A byte, and the events after it. -/
theorem gives_byte {b : UInt8} {r : Reader} {es : List Event} {f : Feed} (hf : l.finished = false)
    (hr : l.reader.next = .ok (some b) r) (h : Feed.Gives (feed { l with reader := r }) es f) :
    (feed l).Gives (.byte b :: es) f := by
  have hb : l.reader.event = (.byte b, r) := by rw [Reader.event, hr]
  have hrest : feed { l with reader := r } = ⟨l.reader.event.2, false⟩ := by
    rw [hb, ← hf]
    rfl
  exact Feed.gives_cons_iff.2 ⟨hf, congrArg Prod.fst hb, hrest ▸ h⟩

/-- A character that is read from a group has its own bytes, unless it is the replacement. -/
theorem gives_of_readGroup {group : List UInt8} {missing : Nat}
    (h : readGroup group missing l = .ok (some c) l') (hf : l.finished = false)
    (hc : c ≠ Utf8.replacement) :
    ∃ bs, (feed l).Gives (bs.map .byte) (feed l') ∧ String.utf8EncodeChar c = group ++ bs := by
  fun_induction readGroup group missing l with
  | case1 group l =>
    cases h
    exact ⟨[], .refl _, by rw [List.append_nil, Utf8.utf8EncodeChar_of_decode rfl hc]⟩
  | case2 group l missing reason r hr => cases h
  | case3 group l missing r hr =>
    cases h
    exact absurd rfl hc
  | case4 group l missing b r hr ih =>
    obtain ⟨bs, hbs, he⟩ := ih h hf
    exact ⟨b :: bs, gives_byte hf hr hbs, by rw [he, List.append_assoc]; rfl⟩

/-- A character was kept, or comes from its own bytes unless it is the replacement. -/
theorem gives_of_readChar (h : l.readChar = .ok (some c) l') (hc : c ≠ Utf8.replacement) :
    (l.pushback = some c ∧ feed l' = feed l) ∨
      (feed l).Gives ((String.utf8EncodeChar c).map .byte) (feed l') := by
  unfold readChar at h
  split at h
  · next hp =>
    cases h
    exact .inl ⟨hp, rfl⟩
  · split at h
    · cases h
    · next hf =>
      rw [Bool.not_eq_true] at hf
      split at h
      · cases h
      · cases h
      · next b r hr =>
        obtain ⟨bs, hbs, he⟩ := gives_of_readGroup h hf hc
        rw [he]
        exact .inr (gives_byte hf hr hbs)

theorem pushback_of_readGroup (group : List UInt8) (missing : Nat) (l : Lexer) :
    (stateOf (readGroup group missing l)).pushback = l.pushback := by
  fun_induction readGroup group missing l with
  | case1 group l => rfl
  | case2 group l missing reason r hr => rfl
  | case3 group l missing r hr => rfl
  | case4 group l missing b r hr ih => exact ih

/-- No character is kept while one is read. -/
theorem pushback_of_readChar (l : Lexer) : (stateOf l.readChar).pushback = none := by
  unfold readChar
  split
  · rfl
  · next hn =>
    split
    · exact hn
    · split
      · exact hn
      · exact hn
      · exact (pushback_of_readGroup _ _ _).trans hn

/-- Some events lead from a reader to this lexer. They end with the character that it keeps, unless
that is the replacement. -/
structure Traced (script : Reader) (es : List Event) (l : Lexer) : Prop where
  gives : Feed.Gives ⟨script, false⟩ es (feed l)
  kept : ∀ c, l.pushback = some c → c ≠ Utf8.replacement → EndsWith es c

variable {script : Reader} {es : List Event}

theorem Traced.readChar {r : EStateM.Result LexicalError Lexer (Option Char)}
    (h : Traced script es l) (hr : l.readChar = r) :
    ∃ es', Traced script es' (stateOf r) ∧
      ∀ c l', r = .ok (some c) l' → c ≠ Utf8.replacement → EndsWith es' c := by
  obtain ⟨us, hus, -⟩ := local_readChar l
  have hp := pushback_of_readChar l
  rw [hr] at hus hp
  refine ⟨es ++ us, ⟨h.gives.trans hus, ?_⟩, ?_⟩
  · rw [hp]
    exact nofun
  · rintro c l' rfl hc
    rcases gives_of_readChar hr hc with ⟨hkept, hl⟩ | hbytes
    · have hnil : us = [] := Feed.Gives.eq_nil_of_self (f := feed l) (hl ▸ hus)
      rw [hnil, List.append_nil]
      exact h.kept c hkept hc
    · rw [hus.unique hbytes]
      exact List.suffix_append _ _

theorem Traced.readDigits {digits : List Char} {r : EStateM.Result LexicalError Lexer (List Char)}
    (h : Traced script es l) (hr : readDigits digits l = r) :
    ∃ es', Traced script es' (stateOf r) := by
  subst hr
  fun_induction Lexer.readDigits digits l generalizing es with
  | case1 digits l e l₁ hc =>
    obtain ⟨es', h', -⟩ := h.readChar hc
    exact ⟨es', h'⟩
  | case2 digits l l₁ hc =>
    obtain ⟨es', h', -⟩ := h.readChar hc
    exact ⟨es', h'⟩
  | case3 digits l c l₁ hc hd ih =>
    obtain ⟨es', h', -⟩ := h.readChar hc
    exact ih h'
  | case4 digits l c l₁ hc hd =>
    -- Here the character that ends the literal is put back.
    obtain ⟨es', h', hends⟩ := h.readChar hc
    refine ⟨es', h'.gives, ?_⟩
    rintro _ ⟨⟩
    exact hends c l₁ rfl

/-- A stop ends the events that lead to the lexer after it, and no character is kept then. -/
theorem Traced.next (h : Traced script es l) :
    ∃ es', Traced script es' (stateOf l.next) ∧
      ∀ l', l.next = .ok .stop l' → EndsWith es' '.' ∧ l'.pushback = none := by
  fun_induction Lexer.next l generalizing es with
  | case1 l e l₁ hc =>
    obtain ⟨es', h', -⟩ := h.readChar hc
    exact ⟨es', h', fun _ hn => by cases hn⟩
  | case2 l l₁ hc =>
    obtain ⟨es', h', -⟩ := h.readChar hc
    exact ⟨es', h', fun _ hn => by cases hn⟩
  | case3 l c l₁ hc hb ih =>
    obtain ⟨es', h', -⟩ := h.readChar hc
    exact ih h'
  | case4 l c l₁ hc hb hd e l₂ hr =>
    obtain ⟨es₁, h₁, -⟩ := h.readChar hc
    obtain ⟨es', h'⟩ := h₁.readDigits hr
    exact ⟨es', h', fun _ hn => by cases hn⟩
  | case5 l c l₁ hc hb hd ds l₂ hr e hl =>
    obtain ⟨es₁, h₁, -⟩ := h.readChar hc
    obtain ⟨es', h'⟩ := h₁.readDigits hr
    exact ⟨es', h', fun _ hn => by cases hn⟩
  | case6 l c l₁ hc hb hd ds l₂ hr u hl =>
    obtain ⟨es₁, h₁, -⟩ := h.readChar hc
    obtain ⟨es', h'⟩ := h₁.readDigits hr
    refine ⟨es', h', ?_⟩
    rintro _ ⟨⟩
    unfold literalToken at hl
    split at hl <;> cases hl
  | case7 l c l₁ hc hb hd u hp =>
    obtain ⟨es', h', hends⟩ := h.readChar hc
    refine ⟨es', h', ?_⟩
    rintro _ ⟨⟩
    have hstop : c = '.' := by
      unfold Token.ofPunctuation? at hp
      split at hp <;> cases hp
      rfl
    subst hstop
    exact ⟨hends _ _ rfl (by decide), (readChar_eq_ok hc).1⟩
  | case8 l c l₁ hc hb hd hp =>
    obtain ⟨es', h', -⟩ := h.readChar hc
    exact ⟨es', h', fun _ hn => by cases hn⟩

/-! ## Calls for tokens -/

theorem calls_concat (l : Lexer) (cs : List Call) (c : Call) :
    l.calls (cs ++ [c]) =
      ((l.calls cs).1 ++ [((l.calls cs).2.call c).1], ((l.calls cs).2.call c).2) := by
  induction cs generalizing l with
  | nil => rfl
  | cons c' cs ih =>
    rw [List.cons_append, calls, ih]
    rfl

theorem call_token_eq_ok {t : Token} (h : l.call .token = (some (.ok t), l')) :
    l.next = .ok t l' := by
  cases hn : l.next with
  | ok t₁ l₁ =>
    rw [call_of_ok hn] at h
    cases h
    rfl
  | error e l₁ =>
    rw [call_token_of_error hn] at h
    cases h

theorem Traced.calls (h : Traced script es l) (n : Nat) :
    ∃ es', Traced script es' (l.calls (List.replicate n .token)).2 := by
  induction n generalizing es l with
  | zero => exact ⟨es, h⟩
  | succ n ih =>
    obtain ⟨es₁, h₁, -⟩ := h.next
    rw [List.replicate_succ, Lexer.calls, call]
    cases hn : l.next with
    | ok t l₁ =>
      rw [hn] at h₁
      exact ih h₁
    | error e l₁ =>
      rw [hn] at h₁
      exact ih h₁

/-- **A stop is the last byte that was taken.** -/
theorem gives_of_stop {answers : List Answer} {n : Nat}
    (h : calls { reader := script } (List.replicate (n + 1) .token) =
      (answers ++ [some (.ok .stop)], l)) :
    ∃ es, Feed.Gives ⟨script, false⟩ (es ++ [.byte 0x2e]) ⟨l.reader, false⟩ ∧
      l = { reader := l.reader } := by
  rw [List.replicate_succ', calls_concat, Prod.mk.injEq] at h
  obtain ⟨hlast, hl⟩ := h
  have hcall := List.singleton_inj.1 (List.append_inj_right' hlast rfl)
  have hnext := call_token_eq_ok (Prod.ext hcall hl)
  have hstart : Traced script [] { reader := script } := ⟨.refl _, nofun⟩
  obtain ⟨es₁, h₁⟩ := hstart.calls n
  obtain ⟨es₂, h₂, hstop⟩ := h₁.next
  obtain ⟨⟨es, rfl⟩, hp⟩ := hstop _ hnext
  rw [hnext] at h₂
  have hgives : Feed.Gives ⟨script, false⟩ (es ++ [.byte 0x2e]) (feed l) := h₂.gives
  have hf : l.finished = false := by
    obtain ⟨f, -, hbyte⟩ := Feed.gives_append_iff.1 hgives
    obtain ⟨-, -, hnil⟩ := Feed.gives_cons_iff.1 hbyte
    exact congrArg Feed.finished (Feed.gives_nil_iff.1 hnil).symm
  obtain ⟨reader, pushback, finished⟩ := l
  cases hp
  cases hf
  exact ⟨es, hgives, rfl⟩

end Lexer

/-! ## What a parser asks for -/

/-- The token that a record tells of, if the lexer gave it. -/
def Record.lexed? : Record → Option Token
  | .lexed t => some t
  | _ => none

namespace Cursor

/-- A parser has asked for a token as often as there are answers here, and these are what it was
given. Its log tells of the tokens among them and of no others. -/
structure Heard (source : Reader) (answers : List (Except LexicalError Token)) (c : Cursor) :
    Prop where
  calls : Lexer.calls { reader := source } (List.replicate answers.length .token) =
    (answers.map some, c.lexer)
  log : c.log.reverse.filterMap Record.lexed? = answers.filterMap Except.toOption

variable {source : Reader} {answers : List (Except LexicalError Token)} {c c' : Cursor}

theorem heard_start (source : Reader) : Heard source [] (.start source) := ⟨rfl, rfl⟩

/-- Asking once more. -/
theorem Heard.calls_ask {a : Except LexicalError Token} {l : Lexer} (h : Heard source answers c)
    (ha : c.lexer.call .token = (some a, l)) :
    Lexer.calls { reader := source } (List.replicate (answers ++ [a]).length .token) =
      ((answers ++ [a]).map some, l) := by
  rw [List.length_append, List.length_singleton, List.replicate_succ', Lexer.calls_concat, h.calls,
    ha, List.map_append]
  rfl

theorem Heard.fetch_ok {u : Unit} (h : Heard source answers c) (hf : fetch c = .ok u c') :
    Heard source (answers ++ [.ok c'.current]) c' := by
  unfold fetch at hf
  split at hf
  · next t l hn =>
    cases hf
    refine ⟨h.calls_ask (Lexer.call_of_ok hn .token), ?_⟩
    simp [Record.lexed?, h.log, Except.toOption]
  · cases hf

theorem Heard.fetch_error {e : Error} (h : Heard source answers c) (hf : fetch c = .error e c') :
    ∃ le, e = .lexical le ∧ Heard source (answers ++ [.error le]) c' := by
  unfold fetch at hf
  split at hf
  · cases hf
  · next le l hn =>
    cases hf
    refine ⟨le, rfl, h.calls_ask (Lexer.call_token_of_error hn), ?_⟩
    simp [h.log, Except.toOption]

/-- Telling of something else than a token. -/
theorem Heard.report {r : Record} (h : Heard source answers c) (hr : r.lexed? = none) :
    Heard source answers { c with log := r :: c.log } := by
  refine ⟨h.calls, ?_⟩
  rw [List.reverse_cons, List.filterMap_append, h.log, List.filterMap_cons_none hr]
  exact List.append_nil _

/-- Going past a token asks for one. -/
theorem Heard.pass (h : Heard source answers c) :
    ∃ d, Heard source answers d ∧ pass c = fetch d := by
  refine ⟨_, ?_, pass_eq_fetch c⟩
  cases Move.past c.current with
  | advance => exact h
  | expect t => exact h.report rfl

theorem Heard.passes {ts : List Token} (us : List Token) (hp : Passes c ts c')
    (h : Heard source (us.map .ok ++ [.ok c.current]) c) :
    Heard source ((us ++ ts).map .ok ++ [.ok c'.current]) c' := by
  induction hp generalizing us with
  | refl c => rwa [List.append_nil]
  | @step c c₁ c' ts ha _ ih =>
    obtain ⟨d, hd, had⟩ := h.pass
    have h₁ := hd.fetch_ok (had ▸ ha)
    have h₂ := ih (us ++ [c.current]) (by simpa using h₁)
    simpa using h₂

end Cursor

/-- The cursor that reading a program ends at. -/
def Reader.final (source : Reader) : Cursor := stateOf (Grammar.wholeProgram (.start source))

/-- A program that is read ends with the first stop that the parser hears of. -/
theorem heard_of_ok {source : Reader} {p : Program} {c : Cursor}
    (h : Grammar.wholeProgram (.start source) = .ok p c) :
    ∃ heard : List Token, Heard source (heard.map .ok ++ [.ok .stop]) c ∧
      .stop ∉ heard ∧ .eof ∉ heard := by
  obtain ⟨c₀, c₁, ts, hf, hp, hc, rfl, d, -, hy, -⟩ := Grammar.wholeProgram_derives h
  obtain ⟨ht, hstop⟩ := d.yield_eq_tokens
  have hts : ts = d.tree.tokens := List.append_cancel_right (hy.symm.trans ht)
  have heof : .eof ∉ ts := fun hm => d.not_mem_yield.1 (hy ▸ List.mem_append_left _ hm)
  have h₁ := Heard.passes [] hp ((heard_start source).fetch_ok hf)
  rw [hc] at h₁
  exact ⟨ts, h₁.report rfl, hts ▸ hstop, heof⟩

theorem heard_of_error {source : Reader} {e : Error} {c : Cursor}
    (h : Grammar.wholeProgram (.start source) = .error e c) :
    ∃ (heard : List Token) (last : Except LexicalError Token),
      Heard source (heard.map .ok ++ [last]) c ∧ .stop ∉ heard ∧ .eof ∉ heard := by
  rcases Grammar.wholeProgram_stuck h with hf | ⟨c₀, hf, hstuck⟩
  · obtain ⟨le, -, hle⟩ := (heard_start source).fetch_error hf
    exact ⟨[], .error le, hle, by simp⟩
  have h₀ := (heard_start source).fetch_ok hf
  cases hstuck with
  | @refused ts s₁ _ e hp hr hs =>
    exact ⟨ts, .ok c.current, Heard.passes [] hp h₀, not_mem_of_reading hr⟩
  | @starved ts s₁ s₂ c₁ _ _ hp hr hs ha =>
    obtain ⟨d, hd, had⟩ := (Heard.passes [] hp h₀).pass
    obtain ⟨le, -, hle⟩ := hd.fetch_error (had ▸ ha)
    refine ⟨ts ++ [c₁.current], .error le, by simpa using hle, ?_⟩
    exact not_mem_of_reading (judge_snoc hr hs)

/-- **A parser asks for no token after a stop, the end or an error.** -/
theorem heard_final (source : Reader) :
    ∃ (heard : List Token) (last : Except LexicalError Token),
      Heard source (heard.map .ok ++ [last]) source.final ∧ .stop ∉ heard ∧ .eof ∉ heard := by
  unfold Reader.final
  cases h : Grammar.wholeProgram (.start source) with
  | ok p c =>
    obtain ⟨heard, hh, hs, he⟩ := heard_of_ok h
    exact ⟨heard, _, hh, hs, he⟩
  | error e c => exact heard_of_error h

/-! ## What is left -/

/-- The input of some reads and another one, in which a stop comes after some bytes and is followed
by the rest. -/
def Reader.stopThen (taken : List Read) (head : List UInt8) (rest : Reader) : Reader :=
  ⟨[], taken ++ .bytes (head ++ 0x2e :: rest.buffered) :: rest.upcoming⟩

/-- A program that is read ends with the stop in some read, and all that comes after that byte can
be replaced. -/
theorem wholeProgram_stopThen {script : List Read} {p : Program} {c : Cursor}
    (h : Grammar.wholeProgram (.start ⟨[], script⟩) = .ok p c) :
    ∃ taken head rest, ⟨[], script⟩ = Reader.stopThen taken head rest ∧
      c.lexer = { reader := rest } ∧
      ∀ rest', Grammar.wholeProgram (.start (.stopThen taken head rest')) =
        onFeed ⟨rest', false⟩ (Grammar.wholeProgram (.start ⟨[], script⟩)) := by
  obtain ⟨heard, hheard, -⟩ := heard_of_ok h
  have hcalls := hheard.calls
  rw [List.length_append, List.length_singleton, List.map_append] at hcalls
  obtain ⟨es, hes, hl⟩ := Lexer.gives_of_stop hcalls
  rcases hes.replace_rest with ⟨head, hr, -⟩ | ⟨taken, head, hr, hrest⟩
  · -- No byte was at hand.
    cases head <;> cases hr
  refine ⟨taken, head, c.lexer.reader, congrArg (Reader.mk []) hr, hl, fun rest' => ?_⟩
  obtain ⟨es', hes', hon⟩ := Grammar.local_wholeProgram (.start ⟨[], script⟩)
  have hc : feed c = ⟨c.lexer.reader, false⟩ := congrArg feed hl
  have he : es' = es ++ [.byte 0x2e] := by
    rw [h] at hes'
    exact hes'.unique (hc ▸ hes)
  exact hon ⟨.stopThen taken head rest', false⟩ _ rfl (he ▸ hrest rest')

/-- **Nothing after the stop is read.** If an input is a program, then the byte of its stop is the
last one that was taken, nothing is kept of what comes after it, and whatever is put in the place of
that gives the same tree, values and log, and is left as it is. Whether or not the input is a
program, the parser asks for another token only while all it was given are tokens other than stops
and `eof`. -/
theorem parse_leaves_rest_unread (script : List Read) :
    (∀ p, parse ⟨[], script⟩ = .ok p → ∃ taken head rest,
      ⟨[], script⟩ = Reader.stopThen taken head rest ∧
      (Reader.final ⟨[], script⟩).current = .stop ∧
      (Reader.final ⟨[], script⟩).lexer = { reader := rest } ∧
      ∀ rest', parse (.stopThen taken head rest') = .ok p ∧
        interpret (.stopThen taken head rest') = interpret ⟨[], script⟩ ∧
        run (.stopThen taken head rest') = { run ⟨[], script⟩ with unread := rest' }) ∧
    ∃ (heard : List Token) (last : Except LexicalError Token),
      Heard ⟨[], script⟩ (heard.map .ok ++ [last]) (Reader.final ⟨[], script⟩) ∧
      .stop ∉ heard ∧ .eof ∉ heard := by
  refine ⟨fun p hp => ?_, heard_final _⟩
  unfold Reader.final
  cases h : Grammar.wholeProgram (.start ⟨[], script⟩) with
  | error e c =>
    rw [parse, h] at hp
    cases hp
  | ok p' c =>
    obtain ⟨taken, head, rest, hr, hl, hrest⟩ := wholeProgram_stopThen h
    obtain ⟨c₀, c₁, ts, -, -, hc, rfl, -⟩ := Grammar.wholeProgram_derives h
    refine ⟨taken, head, rest, hr, hc, hl, fun rest' => ?_⟩
    have hrun := run_of_onFeed (hrest rest')
    refine ⟨(parse_of_onFeed (hrest rest')).trans hp, ?_, hrun⟩
    rw [interpret, hrun]
    rfl

/-- The stop of `1+2.` is followed by a parenthesis in the same read and by a read that fails. -/
theorem parse_leaves_rest_unread_junk :
    let script : List Read := [.interrupted, .bytes [0x31, 0x2b], .bytes [0x32, 0x2e, 0x29],
      .failure "gone"]
    ∃ p taken head, parse ⟨[], script⟩ = .ok p ∧ p.tokens.length = 3 ∧
      ⟨[], script⟩ = Reader.stopThen taken head ⟨[0x29], [.failure "gone"]⟩ ∧
      ∀ rest', parse (.stopThen taken head rest') = .ok p ∧
        (run (.stopThen taken head rest')).unread = rest' := by
  intro script
  have h : parse ⟨[], script⟩ = .ok (.single (.cons (.single (.number ⟨1, rfl⟩)) .add
      (.single (.single (.number ⟨2, rfl⟩))))) := by
    decide +kernel
  have hl : (Reader.final ⟨[], script⟩).lexer = { reader := ⟨[0x29], [.failure "gone"]⟩ } := by
    decide +kernel
  obtain ⟨taken, head, rest, hr, -, hrest, hall⟩ := (parse_leaves_rest_unread script).1 _ h
  cases hl.symm.trans hrest
  refine ⟨_, taken, head, h, rfl, hr, fun rest' => ⟨(hall rest').1, ?_⟩⟩
  rw [(hall rest').2.2]

end Calculator
