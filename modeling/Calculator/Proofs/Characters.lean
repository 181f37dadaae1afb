import Calculator.Proofs.Trail

/-!
# The characters of a text

A text is read without a failure, so a lexer on it can be looked at as a list of characters still
to come: `Lexer.Spells`. Going past a character, a blank, a literal or a punctuation mark shortens
the list, whether the character comes from the bytes or was kept from the last literal.

**Theorem (`Lexer.spells_ofString`).** A lexer on a text has exactly the characters of the text to
come: encoding them and cutting the bytes into groups again gives them back.
-/

namespace Calculator

namespace Utf8

theorem payload_utf8EncodeChar (c : Char) : payload (String.utf8EncodeChar c) = c.toNat := by
  have hc : c.val.toNat < 0x110000 := by
    rcases c.valid with h | ⟨-, h⟩
    · exact Nat.lt_trans h (by decide)
    · exact h
  show payload (String.utf8EncodeChar c) = c.val.toNat
  simp only [String.utf8EncodeChar]
  split
  · simp only [payload, UInt8.toNat_ofNat']
    omega
  · split
    · simp only [payload, UInt8.toNat_ofNat']
      omega
    · split
      · simp only [payload, UInt8.toNat_ofNat']
        omega
      · simp only [payload, UInt8.toNat_ofNat']
        omega

theorem decode_utf8EncodeChar (c : Char) : decode (String.utf8EncodeChar c) = c := by
  have hc : candidate (String.utf8EncodeChar c) = c := by
    rw [candidate, payload_utf8EncodeChar, Char.ofNat_toNat]
  rw [decode, hc, if_pos rfl]

theorem following_ofNat {n : Nat} (hn : n < 256) : following (UInt8.ofNat n) =
    if n < 0xc0 then 0 else if n < 0xe0 then 1 else if n < 0xf0 then 2
    else if n < 0xf8 then 3 else 0 := by
  have : (UInt8.ofNat n).toNat = n := UInt8.toNat_ofNat_of_lt' hn
  simp only [following, UInt8.lt_iff_toNat_lt, this]
  rfl

/-- The first byte of a character says how many bytes follow. -/
theorem exists_utf8EncodeChar (c : Char) :
    ∃ lead group, String.utf8EncodeChar c = lead :: group ∧ following lead = group.length := by
  simp only [String.utf8EncodeChar]
  split
  · refine ⟨_, _, rfl, ?_⟩
    rw [following_ofNat (by omega), if_pos (by omega)]
    rfl
  · split
    · refine ⟨_, _, rfl, ?_⟩
      rw [following_ofNat (by omega), if_neg (by omega), if_pos (by omega)]
      rfl
    · split
      · refine ⟨_, _, rfl, ?_⟩
        rw [following_ofNat (by omega), if_neg (by omega), if_neg (by omega), if_pos (by omega)]
        rfl
      · refine ⟨_, _, rfl, ?_⟩
        rw [following_ofNat (by omega), if_neg (by omega), if_neg (by omega), if_neg (by omega),
          if_pos (by omega)]
        rfl

end Utf8

namespace Lexer

/-- The characters that a lexer has still to come, none of them lost to a failed read. -/
inductive Spells : Lexer → List Char → Prop
  | done {l l' : Lexer} : l.readChar = .ok none l' → Spells l []
  | more {l l' : Lexer} {c : Char} {cs : List Char} :
      l.readChar = .ok (some c) l' → Spells l' cs → Spells l (c :: cs)

/-! ## Texts -/

/-- The rest of a group is taken from the bytes at hand. -/
theorem readGroup_eq (group rest bs : List UInt8) (reads : List Read) (kept : Option Char)
    (finished : Bool) :
    readGroup group rest.length ⟨⟨rest ++ bs, reads⟩, kept, finished⟩ =
      .ok (some (Utf8.decode (group ++ rest))) ⟨⟨bs, reads⟩, kept, finished⟩ := by
  induction rest generalizing group with
  | nil => rw [List.append_nil]; rfl
  | cons b rest ih =>
    rw [List.length_cons, readGroup]
    show readGroup (group ++ [b]) rest.length ⟨⟨rest ++ bs, reads⟩, kept, finished⟩ = _
    rw [ih, List.append_assoc]
    rfl

theorem readChar_encoded (c : Char) (bs : List UInt8) (reads : List Read) :
    readChar ⟨⟨String.utf8EncodeChar c ++ bs, reads⟩, none, false⟩ =
      .ok (some c) ⟨⟨bs, reads⟩, none, false⟩ := by
  obtain ⟨lead, group, hc, hlength⟩ := Utf8.exists_utf8EncodeChar c
  rw [hc]
  show readGroup [lead] (Utf8.following lead) ⟨⟨group ++ bs, reads⟩, none, false⟩ = _
  rw [hlength, readGroup_eq]
  show EStateM.Result.ok (some (Utf8.decode (lead :: group))) _ = _
  rw [← hc, Utf8.decode_utf8EncodeChar]

theorem spells_buffered (cs : List Char) :
    Spells ⟨⟨cs.flatMap String.utf8EncodeChar, []⟩, none, false⟩ cs := by
  induction cs with
  | nil => exact .done rfl
  | cons c cs ih =>
    rw [List.flatMap_cons]
    exact .more (readChar_encoded c _ []) ih

/-- Bytes that come in one read are as good as bytes at hand. -/
theorem readChar_ofBytes (bs : List UInt8) :
    readChar { reader := .ofBytes bs } = readChar ⟨⟨bs, []⟩, none, false⟩ := by
  cases bs <;> rfl

theorem Spells.congr {l l' : Lexer} {cs : List Char} (h : Spells l cs)
    (hl : l'.readChar = l.readChar) : Spells l' cs := by
  cases h with
  | done hc => exact .done (hl.trans hc)
  | more hc hs => exact .more (hl.trans hc) hs

theorem spells_ofString (text : String) : Spells { reader := .ofString text } text.toList :=
  (spells_buffered text.toList).congr (readChar_ofBytes _)

/-! ## After a character -/

theorem readGroup_eq_ok {group : List UInt8} {missing : Nat} {l l' : Lexer} {c : Option Char}
    (h : readGroup group missing l = .ok c l') : c ≠ none ∧ l'.pushback = l.pushback := by
  fun_induction readGroup group missing l with
  | case1 group l => cases h; simp
  | case2 group l missing reason r hr => cases h
  | case3 group l missing r hr => cases h; simp
  | case4 group l missing b r hr ih => exact ih h

theorem readChar_eq_ok {l l' : Lexer} {c : Option Char} (h : l.readChar = .ok c l') :
    l'.pushback = none ∧ (c = none → l'.finished = true) := by
  unfold readChar at h
  split at h
  · cases h; simp
  · next hn =>
    split at h
    · next hf => cases h; exact ⟨hn, fun _ => hf⟩
    · split at h
      · cases h
      · cases h; exact ⟨hn, fun _ => rfl⟩
      · obtain ⟨hne, hp⟩ := readGroup_eq_ok h
        exact ⟨hp.trans hn, fun hc => absurd hc hne⟩

/-- Nothing comes after the end. -/
theorem spells_of_end {l l' : Lexer} (h : l.readChar = .ok none l') : Spells l' [] := by
  obtain ⟨hp, hf⟩ := readChar_eq_ok h
  have hc : l'.readChar = .ok none l' := by
    rw [readChar, hp]
    simp [hf rfl]
  exact .done hc

/-- A character that is put back comes again. -/
theorem spells_of_keep {l l' : Lexer} {c : Char} {cs : List Char}
    (h : l.readChar = .ok (some c) l') (hs : Spells l' cs) :
    Spells { l' with pushback := some c } (c :: cs) := by
  have hp := (readChar_eq_ok h).1
  refine .more rfl ?_
  cases l'
  cases hp
  exact hs

/-- A literal takes all digits there are. -/
theorem readDigits_of_spells {before ds rest : List Char} {l : Lexer}
    (h : Spells l (ds ++ rest)) (hd : ∀ c ∈ ds, c.isDigit = true)
    (hr : ∀ c ∈ rest.head?, c.isDigit = false) :
    ∃ l', readDigits before l = .ok (before.reverse ++ ds) l' ∧ Spells l' rest := by
  induction ds generalizing before l with
  | nil =>
    rw [readDigits, List.append_nil]
    cases h with
    | @done _ l' hc =>
      refine ⟨l', ?_, spells_of_end hc⟩
      split <;> simp_all
    | @more _ l' c cs hc hs =>
      have hn : c.isDigit = false := hr c rfl
      refine ⟨_, ?_, spells_of_keep hc hs⟩
      split <;> simp_all
  | cons d ds ih =>
    rw [List.forall_mem_cons] at hd
    cases h with
    | @more _ l' c cs hc hs =>
      obtain ⟨l₂, hl₂, hrest⟩ := @ih (d :: before) _ hs hd.2
      refine ⟨l₂, ?_, hrest⟩
      rw [readDigits]
      split <;> simp_all

/-! ## Tokens -/

/-- What a call makes of the first character it reads. -/
theorem next_of_readChar {l l' : Lexer} {c : Char} (h : l.readChar = .ok (some c) l') :
    l.next =
      if isBlank c then l'.next
      else if c.isDigit then
        match readDigits [c] l' with
        | .error e l'' => .error e l''
        | .ok digits l'' =>
          match literalToken digits with
          | .error e => .error e l''
          | .ok t => .ok t l''
      else
        match Token.ofPunctuation? c with
        | some t => .ok t l'
        | none => .error (.invalidCharacter c) l' := by
  rw [next]
  split
  · next hc => rw [h] at hc; cases hc
  · next hc => rw [h] at hc; cases hc
  · next hc => rw [h] at hc; cases hc; rfl

theorem next_of_blank {l : Lexer} {c : Char} {cs : List Char} (h : Spells l (c :: cs))
    (hb : isBlank c = true) : ∃ l', l.next = l'.next ∧ Spells l' cs := by
  cases h with
  | @more _ l' _ _ hc hs => exact ⟨l', by rw [next_of_readChar hc, if_pos hb], hs⟩

/-- The token of a character that neither is blank nor begins a literal, or the error. -/
theorem next_of_mark {l : Lexer} {c : Char} {cs : List Char} (h : Spells l (c :: cs))
    (hb : isBlank c = false) (hd : c.isDigit = false) : ∃ l', Spells l' cs ∧
      l.next = match Token.ofPunctuation? c with
        | some t => .ok t l'
        | none => .error (.invalidCharacter c) l' := by
  cases h with
  | @more _ l' _ _ hc hs =>
    exact ⟨l', hs, by rw [next_of_readChar hc, if_neg (by simp [hb]), if_neg (by simp [hd])]⟩

/-- The token of a literal, or the error. -/
theorem next_of_digits {l : Lexer} {d : Char} {ds rest : List Char}
    (h : Spells l (d :: ds ++ rest)) (hd : ∀ c ∈ d :: ds, c.isDigit = true)
    (hr : ∀ c ∈ rest.head?, c.isDigit = false) : ∃ l', Spells l' rest ∧
      l.next = match literalToken (d :: ds) with
        | .error e => .error e l'
        | .ok t => .ok t l' := by
  rw [List.forall_mem_cons] at hd
  cases h with
  | @more _ l₁ _ _ hc hs =>
    obtain ⟨l', hl', hrest⟩ := readDigits_of_spells hs hd.2 hr
    refine ⟨l', hrest, ?_⟩
    rw [next_of_readChar hc, if_neg (by simp [isBlank_eq_false_of_isDigit hd.1]), if_pos hd.1, hl']
    rfl

/-! ## All tokens -/

theorem drain_congr {l l' : Lexer} (h : l.next = l'.next) : l.drain = l'.drain := by
  cases hn : l'.next with
  | error e l₁ => rw [drain_of_error hn, drain_of_error (h.trans hn)]
  | ok t l₁ =>
    by_cases ht : t = .eof
    · subst ht
      rw [drain_of_eof hn, drain_of_eof (h.trans hn)]
    · rw [drain_of_token hn ht, drain_of_token (h.trans hn) ht]

theorem drain_of_blank {l : Lexer} {c : Char} {cs : List Char} (h : Spells l (c :: cs))
    (hb : isBlank c = true) : ∃ l', Spells l' cs ∧ l.drain = l'.drain := by
  obtain ⟨l', hn, hs⟩ := next_of_blank h hb
  exact ⟨l', hs, drain_congr hn⟩

theorem drain_of_mark {l : Lexer} {c : Char} {cs : List Char} {t : Token}
    (h : Spells l (c :: cs)) (ht : Token.ofPunctuation? c = some t) :
    ∃ l', Spells l' cs ∧ l.drain = (t :: l'.drain.1, l'.drain.2) := by
  have hc : isBlank c = false ∧ c.isDigit = false ∧ t ≠ .eof := by
    unfold Token.ofPunctuation? at ht
    split at ht <;> cases ht <;> decide
  obtain ⟨l', hs, hn⟩ := next_of_mark h hc.1 hc.2.1
  rw [ht] at hn
  exact ⟨l', hs, drain_of_token hn hc.2.2⟩

theorem drain_of_literal {l : Lexer} {d : Char} {ds rest : List Char} {v : Value}
    (h : Spells l (d :: ds ++ rest)) (hd : ∀ c ∈ d :: ds, c.isDigit = true)
    (hr : ∀ c ∈ rest.head?, c.isDigit = false) (hv : v.toInt = numeralValue (d :: ds)) :
    ∃ l', Spells l' rest ∧ l.drain = (.number v :: l'.drain.1, l'.drain.2) := by
  obtain ⟨l', hs, hn⟩ := next_of_digits h hd hr
  have hl : literalToken (d :: ds) = .ok (.number v) := by
    rw [literalToken, Value.ofInt?_eq_some_iff.2 hv]
  rw [hl] at hn
  exact ⟨l', hs, drain_of_token hn nofun⟩

end Lexer

end Calculator
