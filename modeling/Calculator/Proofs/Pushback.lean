import Calculator.Proofs.Recovery

/-!
# The character that is kept

A lexer has room for one character. The one that ends a literal is put there in the middle of a call
and taken out by a later one, with failed reads, truncated characters and the end of the token
sequence in between.

`Lexer.calls?` makes the same calls and checks the room: to put a character back where one is kept
already breaks the calls off.

**Theorem (`Lexer.calls?_eq`).** Calls are never broken off. A character is put back only after it
was read, and reading one leaves nothing kept.

**Theorem (`Lexer.keeps_of_next`).** A call that leaves a character kept has read a digit right
before it.

**Theorem (`Lexer.pushback_invariant`).** In every state that calls lead to, the character that is
kept is not a digit. Once the input has ended it is the replacement of a character that the end cut
off, and nothing else.

The parts of the invariant depend on one another. A digit that was kept would begin a literal
without an event of its own, so the digit before the character is found among the events only
because no digit is ever kept.
-/

namespace Calculator

open Fed

/-! ## The events of a character -/

/-- The events in which a character is read: the bytes of its group, or some first bytes of a group
and the end of the input. -/
inductive Event.Forms : List Event → Char → Prop
  | whole {lead : UInt8} {bs : List UInt8} : bs.length = Utf8.following lead →
      Forms ((lead :: bs).map .byte) (Utf8.decode (lead :: bs))
  | cutOff {lead : UInt8} {bs : List UInt8} : bs.length < Utf8.following lead →
      Forms ((lead :: bs).map .byte ++ [.ended]) Utf8.replacement

/-- The input has ended within a character, and this is left of it. -/
def Reader.CutOffAt (script r : Reader) : Prop :=
  ∃ before lead bs, bs.length < Utf8.following lead ∧
    Feed.Gives ⟨script, false⟩ (before ++ ((lead :: bs).map .byte ++ [.ended])) ⟨r, true⟩

namespace Lexer

variable {l l₁ l' : Lexer} {c : Char} {cs : List Char} {script : Reader}

theorem gives_ended {r : Reader} (hf : l.finished = false) (hr : l.reader.next = .ok none r) :
    (feed l).Gives [.ended] (feed { l with reader := r, finished := true }) := by
  have he : l.reader.event = (.ended, r) := by rw [Reader.event, hr]
  exact Feed.gives_cons_iff.2 ⟨hf, congrArg Prod.fst he, he ▸ .refl _⟩

/-- The events of a character of which some bytes are read. -/
theorem forms_of_readGroup {lead : UInt8} {bs group : List UInt8} {missing : Nat}
    (h : readGroup group missing l = .ok (some c) l') (hf : l.finished = false)
    (hgroup : group = lead :: bs) (hlength : bs.length + missing = Utf8.following lead) :
    ∃ es, Event.Forms (group.map .byte ++ es) c ∧ (feed l).Gives es (feed l') := by
  fun_induction readGroup group missing l generalizing bs with
  | case1 group l =>
    cases h
    subst hgroup
    refine ⟨[], ?_, .refl _⟩
    rw [List.append_nil]
    exact .whole hlength
  | case2 group l missing reason r hr => cases h
  | case3 group l missing r hr =>
    cases h
    subst hgroup
    exact ⟨[.ended], .cutOff (by omega), gives_ended hf hr⟩
  | case4 group l missing b r hr ih =>
    obtain ⟨es, hes, hg⟩ := @ih (bs ++ [b]) h hf (by rw [hgroup]; rfl)
      (by rw [List.length_append, List.length_singleton]; omega)
    refine ⟨.byte b :: es, ?_, gives_byte hf hr hg⟩
    rwa [List.map_append, List.append_assoc] at hes

/-- **A character that was not kept is read in its own events.** -/
theorem forms_of_readChar (h : l.readChar = .ok (some c) l') (hp : l.pushback = none) :
    ∃ es, Event.Forms es c ∧ (feed l).Gives es (feed l') := by
  rw [readChar, hp] at h
  dsimp only at h
  split at h
  · cases h
  · next hf =>
    rw [Bool.not_eq_true] at hf
    split at h
    · cases h
    · cases h
    · next b r hr =>
      obtain ⟨es, hes, hg⟩ := forms_of_readGroup h hf rfl (Nat.zero_add _)
      exact ⟨.byte b :: es, hes, gives_byte hf hr hg⟩

/-! ## Calls that check the room -/

/-- Puts a character back, unless one is kept already. -/
def unread? (c : Char) (l : Lexer) : Option Lexer :=
  if l.pushback.isNone then some { l with pushback := some c } else none

/-- The digits of a literal, with a check where the character after them is put back. -/
def readDigits? (digits : List Char) (l : Lexer) :
    Option (EStateM.Result LexicalError Lexer (List Char)) :=
  match _h : l.readChar with
  | .error e l' => some (.error e l')
  | .ok none l' => some (.ok digits.reverse l')
  | .ok (some c) l' =>
    if c.isDigit then readDigits? (c :: digits) l'
    else (l'.unread? c).map (.ok digits.reverse)
termination_by l.size
decreasing_by exact size_of_readChar_some _h

/-- The next token, with the check. -/
def next? (l : Lexer) : Option (EStateM.Result LexicalError Lexer Token) :=
  match _h : l.readChar with
  | .error e l' => some (.error e l')
  | .ok none l' => some (.ok .eof l')
  | .ok (some c) l' =>
    if isBlank c then l'.next?
    else if c.isDigit then
      (readDigits? [c] l').map fun
        | .error e l'' => .error e l''
        | .ok digits l'' =>
          match literalToken digits with
          | .error e => .error e l''
          | .ok t => .ok t l''
    else
      match Token.ofPunctuation? c with
      | some t => some (.ok t l')
      | none => some (.error (.invalidCharacter c) l')
termination_by l.size
decreasing_by exact size_of_readChar_some _h

/-- One item of the token sequence, with the check. -/
def item? (l : Lexer) : Option (Answer × Lexer) :=
  if l.finished && l.pushback.isNone then some (none, l)
  else
    l.next?.map fun
      | .ok .eof l' => (none, l')
      | .ok t l' => (some (.ok t), l')
      | .error e l' => (some (.error e), { l' with pushback := none, finished := true })

/-- The answer to a call and the lexer after it, with the check. -/
def call? (l : Lexer) : Call → Option (Answer × Lexer)
  | .token =>
    l.next?.map fun
      | .ok t l' => (some (.ok t), l')
      | .error e l' => (some (.error e), l')
  | .item => l.item?

/-- Calls that are made one after another, until a check fails. -/
def calls? (l : Lexer) : List Call → Option (List Answer × Lexer)
  | [] => some ([], l)
  | c :: cs =>
    (l.call? c).bind fun first =>
      (first.2.calls? cs).map fun rest => (first.1 :: rest.1, rest.2)

theorem unread?_eq_some_iff :
    l.unread? c = some l' ↔ l.pushback = none ∧ { l with pushback := some c } = l' := by
  rw [unread?, Option.ite_none_right_eq_some, Option.isNone_iff_eq_none, Option.some.injEq]

theorem readDigits?_eq (digits : List Char) (l : Lexer) :
    readDigits? digits l = some (readDigits digits l) := by
  fun_induction readDigits? digits l with
  | case1 digits l e l₁ hc => rw [readDigits_eq, hc]
  | case2 digits l l₁ hc => rw [readDigits_eq, hc]
  | case3 digits l c l₁ hc hd ih =>
    rw [ih, readDigits_eq digits l, hc]
    exact congrArg some (if_pos hd).symm
  | case4 digits l c l₁ hc hd =>
    -- The character was just read, so there is room for it.
    rw [unread?_eq_some_iff.2 ⟨(readChar_eq_ok hc).1, rfl⟩, readDigits_eq, hc]
    exact congrArg some (if_neg hd).symm

theorem next?_eq (l : Lexer) : l.next? = some l.next := by
  fun_induction next? l with
  | case1 l e l₁ hc => rw [next_of_readChar_error hc]
  | case2 l l₁ hc => rw [next_of_readChar_none hc]
  | case3 l c l₁ hc hb ih => rw [ih, next_of_readChar hc, if_pos hb]
  | case4 l c l₁ hc hb hd =>
    have hn := next_of_readChar hc
    rw [if_neg hb, if_pos hd] at hn
    rw [readDigits?_eq]
    exact congrArg some hn.symm
  | case5 l c l₁ hc hb hd t hp =>
    have hn := next_of_readChar hc
    rw [if_neg hb, if_neg hd, hp] at hn
    rw [hn]
  | case6 l c l₁ hc hb hd hp =>
    have hn := next_of_readChar hc
    rw [if_neg hb, if_neg hd, hp] at hn
    rw [hn]

theorem item?_eq (l : Lexer) : l.item? = some l.item := by
  unfold item? item
  rw [next?_eq]
  split
  · rfl
  · rfl

theorem call?_eq (l : Lexer) (c : Call) : l.call? c = some (l.call c) := by
  cases c with
  | token =>
    rw [call?, next?_eq]
    rfl
  | item => exact item?_eq l

/-- **No character is put back where one is kept.** -/
theorem calls?_eq (l : Lexer) (cs : List Call) : l.calls? cs = some (l.calls cs) := by
  induction cs generalizing l with
  | nil => rfl
  | cons c cs ih =>
    rw [calls?, call?_eq, Option.bind_some, ih]
    rfl

/-! ## Calls that leave a character kept -/

theorem Reads.of_concat (h : Reads l (cs ++ [c]) l') :
    ∃ l₁, Reads l cs l₁ ∧ l₁.readChar = .ok (some c) l' := by
  induction cs generalizing l with
  | nil =>
    cases h with
    | step hc hr =>
      cases hr
      exact ⟨l, .refl l, hc⟩
  | cons c' cs ih =>
    cases h with
    | step hc hr =>
      obtain ⟨l₁, hr', hc'⟩ := ih hr
      exact ⟨l₁, .step hc hr', hc'⟩

/-- Nothing is kept once a character is read. -/
theorem Reads.pushback_eq (h : Reads l cs l') : l' = l ∨ l'.pushback = none := by
  induction h with
  | refl l => exact .inl rfl
  | step hc _ ih =>
    rcases ih with rfl | hp
    · exact .inr (readChar_eq_ok hc).1
    · exact .inr hp

theorem ReadFrom.reads (h : ReadFrom script l) (hr : Reads l cs l') : ReadFrom script l' := by
  induction hr with
  | refl l => exact h
  | @step l l₁ l' c cs hc _ ih =>
    obtain ⟨es, hes⟩ := h
    obtain ⟨es', hes', -⟩ := local_readChar l
    rw [hc] at hes'
    exact ih ⟨es ++ es', hes.trans hes'⟩

/-- Some characters are read, then a digit, and then a character that is no digit and is kept. -/
inductive Keeps (l : Lexer) (c : Char) : Lexer → Prop
  | mk {l₁ l₂ l₃ : Lexer} {cs : List Char} {d : Char} : Reads l cs l₁ →
      l₁.readChar = .ok (some d) l₂ → d.isDigit = true →
      l₂.readChar = .ok (some c) l₃ → c.isDigit = false →
      Keeps l c { l₃ with pushback := some c }

theorem Keeps.not_digit (h : Keeps l c l') : c.isDigit = false := by
  cases h with
  | mk _ _ _ _ hnot => exact hnot

theorem Keeps.after {c' : Char} (h : Keeps l₁ c l') (hc : l.readChar = .ok (some c') l₁) :
    Keeps l c l' := by
  cases h with
  | mk hr hd hdigit hc' hnot => exact .mk (.step hc hr) hd hdigit hc' hnot

/-- A literal that leaves a character kept, once its first digit is read. -/
theorem keeps_of_readDigits {d : Char} {digits : List Char} (hd : l.readChar = .ok (some d) l₁)
    (hdigit : d.isDigit = true) (hr : readDigits [d] l₁ = .ok digits l')
    (h : l'.pushback = some c) : Keeps l c l' := by
  obtain ⟨more, l₂, -, hmore, hall, hends⟩ := reads_of_readDigits hr
  cases hends with
  | ended hnone => cases h.symm.trans (readChar_eq_ok hnone).1
  | putBack hc hnot =>
    cases h
    -- The digit before the character is the last one of the literal.
    have hne : d :: more ≠ [] := List.cons_ne_nil d more
    have hdigits : ∀ x ∈ d :: more, x.isDigit = true := List.forall_mem_cons.2 ⟨hdigit, hall⟩
    have hreads : Reads l (d :: more) l₂ := .step hd hmore
    rw [← List.dropLast_concat_getLast hne] at hreads
    obtain ⟨l₃, hbefore, hlast⟩ := hreads.of_concat
    exact .mk hbefore hlast (hdigits _ (List.getLast_mem hne)) hc hnot

/-- **A call that leaves a character kept has read a digit right before it.** -/
theorem keeps_of_next (h : (stateOf l.next).pushback = some c) : Keeps l c (stateOf l.next) := by
  fun_induction next l with
  | case1 l e l₁ hc => cases (pushback_of_readChar_error hc).symm.trans h
  | case2 l l₁ hc => cases (readChar_eq_ok hc).1.symm.trans h
  | case3 l c' l₁ hc hb ih => exact (ih h).after hc
  | case4 l d l₁ hc hb hd e l₂ hr =>
    obtain ⟨more, l₃, -, -, he⟩ := reads_of_readDigits_error hr
    cases (pushback_of_readChar_error he).symm.trans h
  | case5 l d l₁ hc hb hd ds l₂ hr e hl => exact keeps_of_readDigits hc hd hr h
  | case6 l d l₁ hc hb hd ds l₂ hr u hl => exact keeps_of_readDigits hc hd hr h
  | case7 l c' l₁ hc hb hd u hp => cases (readChar_eq_ok hc).1.symm.trans h
  | case8 l c' l₁ hc hb hd hp => cases (readChar_eq_ok hc).1.symm.trans h

/-! ## The invariant -/

/-- The last events that lead from a reader to a lexer are those of a digit and of a character. -/
def AfterDigit (script : Reader) (c : Char) (l : Lexer) : Prop :=
  ∃ before d es, d.isDigit = true ∧ Event.Forms es c ∧
    Feed.Gives ⟨script, false⟩ (before ++ (String.utf8EncodeChar d).map .byte ++ es) (feed l)

/-- Events lead to the lexer, and the character that it keeps is the end of a literal. -/
structure KeepsEnd (script : Reader) (l : Lexer) : Prop where
  readFrom : ReadFrom script l
  not_digit : ∀ c, l.pushback = some c → c.isDigit = false
  afterDigit : ∀ c, l.pushback = some c → AfterDigit script c l

/-- The digit before a character that is kept is among the events. -/
theorem KeepsEnd.of_keeps (h : KeepsEnd script l) (hk : Keeps l c l') :
    AfterDigit script c l' := by
  cases hk with
  | @mk l₁ l₂ l₃ cs d hr hd hdigit hc hnot =>
    obtain ⟨before, hbefore⟩ := h.readFrom.reads hr
    obtain ⟨es, hes, hg⟩ := forms_of_readChar hc (readChar_eq_ok hd).1
    have hne : d ≠ Utf8.replacement := by
      rintro rfl
      exact absurd hdigit (by decide)
    rcases gives_of_readChar hd hne with ⟨hkept, -⟩ | hbytes
    · -- Only the first character of the call can have been kept, and that is not a digit.
      rcases hr.pushback_eq with rfl | hp
      · rw [h.not_digit d hkept] at hdigit
        cases hdigit
      · cases hp.symm.trans hkept
    · exact ⟨before, d, es, hdigit, hes, (hbefore.trans hbytes).trans hg⟩

theorem KeepsEnd.next (h : KeepsEnd script l) : KeepsEnd script (stateOf l.next) where
  readFrom := h.readFrom.next
  not_digit _ hc := (keeps_of_next hc).not_digit
  afterDigit _ hc := h.of_keeps (keeps_of_next hc)

/-- A lexer that keeps a character is not spent, so events lead to it. -/
theorem Reachable.keepsEnd (h : l.Reachable script) (hc : l.pushback = some c) :
    KeepsEnd script l := by
  have hnew : KeepsEnd script { reader := script } := ⟨⟨[], .refl _⟩, nofun, nofun⟩
  rcases h.spent_or hnew fun _ => KeepsEnd.next with h | h
  · cases hc.symm.trans (spent_iff.1 h).2
  · exact h

/-- After the end of the input, a character that is kept was cut off by it. -/
theorem AfterDigit.cutOff (h : AfterDigit script c l) (hf : l.finished = true) :
    c = Utf8.replacement ∧ script.CutOffAt l.reader := by
  obtain ⟨before, d, es, -, hes, hg⟩ := h
  have hl : feed l = ⟨l.reader, true⟩ := congrArg (Feed.mk l.reader) hf
  rw [hl] at hg
  cases hes with
  | @whole lead bs hlength =>
    -- The group began before the end, and no event of it is the end.
    obtain ⟨f, -, hgroup⟩ := Feed.gives_append_iff.1 hg
    have hfinished := hgroup.finished_eq
    rw [(Feed.gives_cons_iff.1 hgroup).1] at hfinished
    simp at hfinished
  | @cutOff lead bs hlength => exact ⟨rfl, _, lead, bs, hlength, hg⟩

/-- **The room for one character.** Whatever reads, failures and interruptions an input consists of
and in whatever order tokens and items were asked for, a character that the lexer keeps is not a
digit and is the one right after a digit of the input. If the input has ended, it can only be the
replacement of a character that the end has cut off. And whatever is asked for next, no character is
put back where one is kept: with a check of that the calls have the same answers and lead to the
same lexer. -/
theorem pushback_invariant (h : l.Reachable script) :
    (∀ c, l.pushback = some c → c.isDigit = false ∧ AfterDigit script c l ∧
      (l.finished = true → c = Utf8.replacement ∧ script.CutOffAt l.reader)) ∧
    ∀ asked, l.calls? asked = some (l.calls asked) := by
  refine ⟨fun c hc => ?_, l.calls?_eq⟩
  have hl := h.keepsEnd hc
  have hafter := hl.afterDigit c hc
  exact ⟨hl.not_digit c hc, hafter, hafter.cutOff⟩

/-- A blank is kept after `1`, and the call that takes it out meets a read that fails. After `2` the
input ends within a character, with another read to come. -/
theorem pushback_invariant_truncated :
    let script : Reader := ⟨[], [.bytes [0x31, 0x20], .failure "gone", .bytes [0x32, 0xe2],
      .interrupted, .bytes [0x82], .bytes [], .bytes [0x33]]⟩
    let l : Lexer := ⟨⟨[], [.bytes [0x33]]⟩, some Utf8.replacement, true⟩
    (calls { reader := script } [.item, .token, .item]).2 = l ∧
      AfterDigit script Utf8.replacement l ∧ script.CutOffAt l.reader ∧
      l.calls? [.token, .item] =
        some ([some (.error (.invalidCharacter Utf8.replacement)), none],
          { l with pushback := none }) := by
  intro script l
  have hcalls : (calls { reader := script } [.item, .token, .item]).2 = l := by decide +kernel
  have hanswers : l.calls [.token, .item] =
      ([some (.error (.invalidCharacter Utf8.replacement)), none],
        { l with pushback := none }) := by
    decide +kernel
  obtain ⟨hkept, hchecked⟩ := pushback_invariant ⟨_, hcalls⟩
  obtain ⟨-, hafter, hcutOff⟩ := hkept Utf8.replacement rfl
  exact ⟨hcalls, hafter, (hcutOff rfl).2, (hchecked _).trans (congrArg some hanswers)⟩

end Lexer

end Calculator
