import Calculator.Proofs.Unread

/-!
# After an error

A lexer goes on after an error. What it was at is lost, and everything after that is lexed as if the
input began there.

**Theorem (`Lexer.fails_of_next`).** How a call can fail. It passes over blanks, and then a read
fails, before the token or within a literal or a character; or it comes to a character that begins
no token; or to a literal that is too large, and has read one character too far.

**Theorem (`Lexer.recovery_after_errors`).** After a failed read or an invalid character, the lexer
is a new one on the events to come. A failed read loses what was read of one literal and one
character, and a literal that is too large loses nothing after it.
-/

namespace Calculator

open Fed

/-- The beginning of a group, with at least one byte missing. -/
def Utf8.IsBegun (bs : List UInt8) : Prop := ∀ lead ∈ bs.head?, bs.length ≤ following lead

/-- Before the end is reported, the events that were given are the first of those to come. -/
theorem Feed.Gives.events_eq {f f' : Feed} {es : List Event} (h : Gives f es f')
    (hf : f'.finished = false) : f.reader.events = es ++ f'.reader.events := by
  induction h with
  | refl f => rfl
  | @step r r' e es f he hg ih =>
    obtain ⟨hhead, htail⟩ := r.event_eq
    rw [he] at hhead htail
    cases hr : r.events with
    | nil =>
      -- Only the end can be given here, and it would have finished the feed.
      rw [hr] at hhead
      change e = .ended at hhead
      have := hg.finished_eq
      rw [hf, hhead] at this
      cases this
    | cons e' es' =>
      rw [hr] at hhead htail
      change e = e' at hhead
      change r'.events = es' at htail
      rw [← htail, ih hf, hhead]
      rfl

namespace Lexer

variable {l l₁ l' : Lexer} {c : Char} {cs : List Char} {e : LexicalError}

/-- A lexer that keeps no character and has not met the end is a new one. -/
theorem eq_new (hp : l.pushback = none) (hf : l.finished = false) : l = { reader := l.reader } := by
  cases l
  cases hp
  cases hf
  rfl

/-! ## Failed reads -/

theorem gives_failure {reason : String} {r : Reader} (hf : l.finished = false)
    (hr : l.reader.next = .error reason r) :
    (feed l).Gives [.failure reason] (feed { l with reader := r }) := by
  have he : l.reader.event = (.failure reason, r) := by rw [Reader.event, hr]
  have hrest : feed { l with reader := r } = ⟨r, false⟩ := congrArg (Feed.mk r) hf
  rw [hrest]
  exact Feed.gives_cons_iff.2 ⟨hf, congrArg Prod.fst he, he ▸ .refl _⟩

/-- A read that fails within a group. -/
theorem readGroup_eq_error {group : List UInt8} {missing : Nat}
    (h : readGroup group missing l = .error e l') (hf : l.finished = false) :
    ∃ (reason : String) (bs : List UInt8), e = .readFailure reason ∧ bs.length < missing ∧
      l'.finished = false ∧ (feed l).Gives (bs.map .byte ++ [.failure reason]) (feed l') := by
  fun_induction readGroup group missing l with
  | case1 group l => cases h
  | case2 group l missing reason r hr =>
    cases h
    exact ⟨reason, [], rfl, Nat.succ_pos missing, hf, gives_failure hf hr⟩
  | case3 group l missing r hr => cases h
  | case4 group l missing b r hr ih =>
    obtain ⟨reason, bs, he, hlength, hfinished, hg⟩ := ih h hf
    exact ⟨reason, b :: bs, he, Nat.succ_lt_succ hlength, hfinished, gives_byte hf hr hg⟩

theorem pushback_of_readChar_error (h : l.readChar = .error e l') : l'.pushback = none := by
  have hp := pushback_of_readChar l
  rwa [h] at hp

/-- **A read that fails within a character takes the bytes before it, and no character is kept.** -/
theorem readChar_eq_error (h : l.readChar = .error e l') :
    ∃ (reason : String) (begun : List UInt8), e = .readFailure reason ∧ Utf8.IsBegun begun ∧
      l.pushback = none ∧ l' = { reader := l'.reader } ∧
      (feed l).Gives (begun.map .byte ++ [.failure reason]) (feed l') := by
  have hp := pushback_of_readChar_error h
  unfold readChar at h
  split at h
  · cases h
  · next hn =>
    split at h
    · cases h
    · next hf =>
      rw [Bool.not_eq_true] at hf
      split at h
      · next reason r hr =>
        cases h
        exact ⟨reason, [], rfl, nofun, hn, eq_new hp hf, gives_failure hf hr⟩
      · cases h
      · next b r hr =>
        obtain ⟨reason, bs, he, hlength, hf', hg⟩ := readGroup_eq_error h hf
        refine ⟨reason, b :: bs, he, ?_, hn, eq_new hp hf', gives_byte hf hr hg⟩
        rintro _ ⟨⟩
        exact hlength

/-! ## Calls that fail -/

/-- Some characters are read one after another. -/
inductive Reads : Lexer → List Char → Lexer → Prop
  | refl (l : Lexer) : Reads l [] l
  | step {l l₁ l' : Lexer} {c : Char} {cs : List Char} :
      l.readChar = .ok (some c) l₁ → Reads l₁ cs l' → Reads l (c :: cs) l'

theorem Reads.trans {cs' : List Char} (h : Reads l cs l₁) (h' : Reads l₁ cs' l') :
    Reads l (cs ++ cs') l' := by
  induction h with
  | refl l => exact h'
  | step hc _ ih => exact .step hc (ih h')

/-- Characters come from their own bytes, save for one that was kept. -/
theorem Reads.gives (h : Reads l cs l') (hcs : Utf8.replacement ∉ cs) (hp : l'.pushback = none) :
    ∃ taken, l.pushback.toList ++ taken = cs ∧
      (feed l).Gives ((taken.flatMap String.utf8EncodeChar).map .byte) (feed l') := by
  induction h with
  | refl l => exact ⟨[], by rw [hp]; rfl, .refl _⟩
  | @step l l₁ l' c cs hc _ ih =>
    rw [List.mem_cons, not_or] at hcs
    obtain ⟨taken, htaken, hg⟩ := ih hcs.2 hp
    rw [(readChar_eq_ok hc).1] at htaken
    cases hl : l.pushback with
    | some c' =>
      have hkept : l.readChar = .ok (some c') { l with pushback := none } := by
        rw [readChar, hl]
      cases hc.symm.trans hkept
      exact ⟨taken, congrArg (c :: ·) htaken, hg⟩
    | none =>
      rcases gives_of_readChar hc (Ne.symm hcs.1) with ⟨hkept, -⟩ | hbytes
      · cases hl.symm.trans hkept
      · refine ⟨c :: taken, congrArg (c :: ·) htaken, ?_⟩
        rw [List.flatMap_cons, List.map_append]
        exact hbytes.trans hg

/-- How a literal ends: with the input, or before a character that is put back. -/
inductive Ends : Lexer → Lexer → Prop
  | ended {l l' : Lexer} : l.readChar = .ok none l' → Ends l l'
  | putBack {l l' : Lexer} {c : Char} : l.readChar = .ok (some c) l' → c.isDigit = false →
      Ends l { l' with pushback := some c }

/-- Why a call fails, after the blanks before a token. -/
inductive Fails : Lexer → LexicalError → Lexer → Prop
  | read {l l₁ l' : Lexer} {digits : List Char} {e : LexicalError} : Reads l digits l₁ →
      (∀ c ∈ digits, c.isDigit = true) → l₁.readChar = .error e l' → Fails l e l'
  | character {l l' : Lexer} {c : Char} : l.readChar = .ok (some c) l' →
      Fails l (.invalidCharacter c) l'
  | literal {l l₁ l' : Lexer} {digits : List Char} : Reads l digits l₁ →
      (∀ c ∈ digits, c.isDigit = true) → Ends l₁ l' →
      Fails l (.literalTooLarge (String.ofList digits)) l'

theorem reads_of_readDigits {before digits : List Char} (h : readDigits before l = .ok digits l') :
    ∃ more l₁, digits = before.reverse ++ more ∧ Reads l more l₁ ∧
      (∀ c ∈ more, c.isDigit = true) ∧ Ends l₁ l' := by
  fun_induction readDigits before l with
  | case1 before l e l₁ hc => cases h
  | case2 before l l₁ hc =>
    cases h
    exact ⟨[], l, by simp, .refl l, List.forall_mem_nil _, .ended hc⟩
  | case3 before l c l₁ hc hd ih =>
    obtain ⟨more, l₂, rfl, hr, hall, hends⟩ := ih h
    refine ⟨c :: more, l₂, by simp, .step hc hr, ?_, hends⟩
    exact List.forall_mem_cons.2 ⟨hd, hall⟩
  | case4 before l c l₁ hc hd =>
    cases h
    exact ⟨[], l, by simp, .refl l, List.forall_mem_nil _, .putBack hc (by simpa using hd)⟩

theorem reads_of_readDigits_error {before : List Char} (h : readDigits before l = .error e l') :
    ∃ more l₁, Reads l more l₁ ∧ (∀ c ∈ more, c.isDigit = true) ∧ l₁.readChar = .error e l' := by
  fun_induction readDigits before l with
  | case1 before l e l₁ hc =>
    cases h
    exact ⟨[], l, .refl l, List.forall_mem_nil _, hc⟩
  | case2 before l l₁ hc => cases h
  | case3 before l c l₁ hc hd ih =>
    obtain ⟨more, l₂, hr, hall, he⟩ := ih h
    exact ⟨c :: more, l₂, .step hc hr, List.forall_mem_cons.2 ⟨hd, hall⟩, he⟩
  | case4 before l c l₁ hc hd => cases h

/-- A call that fails with no blanks before. -/
theorem Fails.atOnce (h : Fails l e l') :
    ∃ blanks l₁, Reads l blanks l₁ ∧ (∀ c ∈ blanks, isBlank c = true) ∧ Fails l₁ e l' :=
  ⟨[], l, .refl l, List.forall_mem_nil _, h⟩

/-- **How a call can fail.** -/
theorem fails_of_next (h : l.next = .error e l') :
    ∃ blanks l₁, Reads l blanks l₁ ∧ (∀ c ∈ blanks, isBlank c = true) ∧ Fails l₁ e l' := by
  fun_induction next l with
  | case1 l e l₁ hc =>
    cases h
    exact (Fails.read (.refl l) (List.forall_mem_nil _) hc).atOnce
  | case2 l l₁ hc => cases h
  | case3 l c l₁ hc hb ih =>
    obtain ⟨blanks, l₂, hr, hall, hf⟩ := ih h
    exact ⟨c :: blanks, l₂, .step hc hr, List.forall_mem_cons.2 ⟨hb, hall⟩, hf⟩
  | case4 l c l₁ hc hb hd e l₂ hr =>
    cases h
    obtain ⟨more, l₃, hmore, hall, he⟩ := reads_of_readDigits_error hr
    exact (Fails.read (.step hc hmore) (List.forall_mem_cons.2 ⟨hd, hall⟩) he).atOnce
  | case5 l c l₁ hc hb hd ds l₂ hr e hl =>
    cases h
    obtain ⟨more, l₃, rfl, hmore, hall, hends⟩ := reads_of_readDigits hr
    have he : e = .literalTooLarge (String.ofList (c :: more)) := by
      unfold literalToken at hl
      split at hl <;> cases hl
      rfl
    subst he
    exact (Fails.literal (.step hc hmore) (List.forall_mem_cons.2 ⟨hd, hall⟩) hends).atOnce
  | case6 l c l₁ hc hb hd ds l₂ hr u hl => cases h
  | case7 l c l₁ hc hb hd u hp => cases h
  | case8 l c l₁ hc hb hd hp =>
    cases h
    exact (Fails.character hc).atOnce

/-! ## What a failed call leaves -/

theorem call_token_eq_error (h : l.call .token = (some (.error e), l')) : l.next = .error e l' := by
  cases hn : l.next with
  | ok t l₁ =>
    rw [call_of_ok hn] at h
    cases h
  | error e₁ l₁ =>
    rw [call_token_of_error hn] at h
    cases h
    rfl

/-- A failed read leaves a new lexer, and so does an invalid character before the end. -/
theorem eq_new_of_next (h : l.next = .error e l')
    (he : (∃ reason, e = .readFailure reason) ∨ (∃ c, e = .invalidCharacter c) ∧
      l'.finished = false) : l' = { reader := l'.reader } := by
  obtain ⟨blanks, l₁, -, -, hfails⟩ := fails_of_next h
  cases hfails with
  | read hdigits hall hc =>
    obtain ⟨reason, begun, -, -, -, hnew, -⟩ := readChar_eq_error hc
    exact hnew
  | character hc =>
    rcases he with ⟨reason, he⟩ | ⟨-, hf⟩
    · cases he
    · exact eq_new (readChar_eq_ok hc).1 hf
  | literal => rcases he with ⟨reason, he⟩ | ⟨⟨c, he⟩, -⟩ <;> cases he

/-- What a failed read loses: blanks, the digits of a literal and the first bytes of a character. -/
theorem gives_of_readFailure {reason : String} (h : l.next = .error (.readFailure reason) l') :
    ∃ taken blanks digits begun, l.pushback.toList ++ taken = blanks ++ digits ∧
      (∀ c ∈ blanks, isBlank c = true) ∧ (∀ c ∈ digits, c.isDigit = true) ∧ Utf8.IsBegun begun ∧
      (feed l).Gives ((taken.flatMap String.utf8EncodeChar ++ begun).map .byte ++
        [.failure reason]) (feed l') := by
  obtain ⟨blanks, l₁, hblanks, hblank, hfails⟩ := fails_of_next h
  cases hfails with
  | @read l₂ _ digits _ hdigits hdigit hc =>
    obtain ⟨reason', begun, he, hbegun, hp, -, hg⟩ := readChar_eq_error hc
    cases he
    -- The replacement is neither, so each character came from its own bytes.
    have hne : Utf8.replacement ∉ blanks ++ digits := by
      rw [List.mem_append]
      rintro (hm | hm)
      · exact absurd (hblank _ hm) (by decide)
      · exact absurd (hdigit _ hm) (by decide)
    obtain ⟨taken, htaken, hg'⟩ := (hblanks.trans hdigits).gives hne hp
    refine ⟨taken, blanks, digits, begun, htaken, hblank, hdigit, hbegun, ?_⟩
    rw [List.map_append, List.append_assoc]
    exact hg'.trans hg

/-- What a call reads of a literal that is too large. The character that ends it is still the next
one. -/
theorem reads_of_literalTooLarge {text : String} (h : l.next = .error (.literalTooLarge text) l') :
    ∃ blanks digits l₁, Reads l (blanks ++ digits) l₁ ∧ (∀ c ∈ blanks, isBlank c = true) ∧
      (∀ c ∈ digits, c.isDigit = true) ∧ text = String.ofList digits ∧
      ∀ c l₂, l₁.readChar = .ok (some c) l₂ →
        c.isDigit = false ∧ l'.readChar = .ok (some c) l₂ ∧ l'.next = l₁.next := by
  obtain ⟨blanks, l₁, hblanks, hblank, hfails⟩ := fails_of_next h
  cases hfails with
  | read hdigits hdigit hc =>
    obtain ⟨reason, begun, he, -⟩ := readChar_eq_error hc
    cases he
  | @literal l₂ _ digits hdigits hdigit hends =>
    refine ⟨blanks, digits, l₂, hblanks.trans hdigits, hblank, hdigit, rfl, fun c l₃ hc => ?_⟩
    cases hends with
    | ended hnone => cases hc.symm.trans hnone
    | putBack hc' hd =>
      cases hc.symm.trans hc'
      -- Reading a character that was put back leads where reading it first did.
      have hkept : Lexer.readChar { l₃ with pushback := some c } = .ok (some c) l₃ := by
        have hp := (readChar_eq_ok hc).1
        cases l₃
        cases hp
        rfl
      exact ⟨hd, hkept, (next_of_readChar hkept).trans (next_of_readChar hc).symm⟩

/-- **Recovery after an error.** Whatever reads, failures and interruptions an input consists of and
however many tokens were asked for, a call that fails leaves the lexer as follows. After a failed
read, or an invalid character before the end of the input, it is a new lexer on the events that are
left, and later calls are answered as by any new lexer with these events to come. The events that a
failed read loses are those of the blanks and digits since the last token and of the first bytes of
a character. After a literal that is too large, the character that ended it is the next one. -/
theorem recovery_after_errors (script : Reader) (n : Nat)
    (hl : (calls { reader := script } (List.replicate n .token)).2 = l)
    (h : l.call .token = (some (.error e), l')) :
    ((∃ reason, e = .readFailure reason) ∨ (∃ c, e = .invalidCharacter c) ∧ l'.finished = false →
      l' = { reader := l'.reader } ∧ ∃ taken,
        Feed.Gives ⟨script, false⟩ taken ⟨l'.reader, false⟩ ∧
        script.events = taken ++ l'.reader.events ∧
        ∀ rest : Reader, script.events = taken ++ rest.events →
          ∀ cs, (l'.calls cs).1 = (calls { reader := rest } cs).1) ∧
    (∀ reason, e = .readFailure reason → ∃ taken blanks digits begun,
      l.pushback.toList ++ taken = blanks ++ digits ∧ (∀ c ∈ blanks, isBlank c = true) ∧
      (∀ c ∈ digits, c.isDigit = true) ∧ Utf8.IsBegun begun ∧
      (feed l).Gives ((taken.flatMap String.utf8EncodeChar ++ begun).map .byte ++
        [.failure reason]) (feed l')) ∧
    ∀ text, e = .literalTooLarge text → ∃ blanks digits l₁, Reads l (blanks ++ digits) l₁ ∧
      (∀ c ∈ blanks, isBlank c = true) ∧ (∀ c ∈ digits, c.isDigit = true) ∧
      text = String.ofList digits ∧ ∀ c l₂, l₁.readChar = .ok (some c) l₂ →
        c.isDigit = false ∧ l'.readChar = .ok (some c) l₂ ∧ l'.next = l₁.next := by
  have hnext := call_token_eq_error h
  refine ⟨fun he => ?_, fun reason he => ?_, fun text he => ?_⟩
  · have hnew := eq_new_of_next hnext he
    have hstart : Traced script [] { reader := script } := ⟨.refl _, nofun⟩
    obtain ⟨es, hes⟩ := hstart.calls n
    rw [hl] at hes
    obtain ⟨taken, htaken, -⟩ := hes.next
    have hgives : Feed.Gives ⟨script, false⟩ taken ⟨l'.reader, false⟩ := by
      have := htaken.gives
      rw [hnext, stateOf, hnew] at this
      exact this
    have hevents : script.events = taken ++ l'.reader.events := hgives.events_eq rfl
    refine ⟨hnew, taken, hgives, hevents, fun rest hrest cs => ?_⟩
    have hsame : l'.reader.events = rest.events :=
      List.append_cancel_left (hevents.symm.trans hrest)
    have halike : Alike l' { reader := rest } := by
      rw [hnew]
      exact ⟨alike_of_events hsame, rfl⟩
    exact halike.calls_eq cs
  · subst he
    exact gives_of_readFailure hnext
  · subst he
    exact reads_of_literalTooLarge hnext

/-- After `1` and a blank that is kept, a read fails within the second character of `2…`, and the
next one gives a stop. In the other input a literal is too large and a sign ends it. -/
theorem recovery_after_errors_midway :
    let script : Reader := ⟨[], [.bytes [0x31, 0x20, 0x32], .interrupted, .bytes [0xe2, 0x80],
      .failure "gone", .bytes [0x2e]]⟩
    let l : Lexer := ⟨⟨[0x32], [.interrupted, .bytes [0xe2, 0x80], .failure "gone",
      .bytes [0x2e]]⟩, some ' ', false⟩
    let l' : Lexer := { reader := ⟨[], [.bytes [0x2e]]⟩ }
    let large : Lexer := { reader := .ofString "99999999999999999999+" }
    ((calls { reader := script } (List.replicate 1 .token)).2 = l ∧
      l.call .token = (some (.error (.readFailure "gone")), l') ∧
      (∀ cs, (l'.calls cs).1 = (calls { reader := ⟨[0x2e], [.interrupted]⟩ } cs).1) ∧
      ∃ taken blanks digits begun, ' ' :: taken = blanks ++ digits ∧
        (∀ c ∈ blanks, isBlank c = true) ∧ (∀ c ∈ digits, c.isDigit = true) ∧
        Utf8.IsBegun begun ∧ (feed l).Gives
          ((taken.flatMap String.utf8EncodeChar ++ begun).map .byte ++ [.failure "gone"])
          (feed l')) ∧
    large.call .token = (some (.error (.literalTooLarge "99999999999999999999")),
      ⟨⟨[], []⟩, some '+', false⟩) ∧
    ∃ blanks digits l₁, large.Reads (blanks ++ digits) l₁ ∧ ∀ c l₂,
      l₁.readChar = .ok (some c) l₂ → Lexer.next ⟨⟨[], []⟩, some '+', false⟩ = l₁.next := by
  intro script l l' large
  have hl : (calls { reader := script } (List.replicate 1 .token)).2 = l := by decide +kernel
  have h : l.call .token = (some (.error (.readFailure "gone")), l') := by decide +kernel
  have hlarge : large.call .token = (some (.error (.literalTooLarge "99999999999999999999")),
      ⟨⟨[], []⟩, some '+', false⟩) := by
    decide +kernel
  obtain ⟨hnew, hlost, -⟩ := recovery_after_errors script 1 hl h
  obtain ⟨-, taken, -, hevents, hcalls⟩ := hnew (.inl ⟨_, rfl⟩)
  obtain ⟨-, -, hliteral⟩ := recovery_after_errors large.reader 0 rfl hlarge
  obtain ⟨blanks, digits, l₁, hreads, -, -, -, hgoes⟩ := hliteral _ rfl
  exact ⟨⟨hl, h, hcalls ⟨[0x2e], [.interrupted]⟩ hevents, hlost _ rfl⟩, hlarge, blanks, digits, l₁,
    hreads, fun c l₂ hc => (hgoes c l₂ hc).2.2⟩

end Lexer

end Calculator
