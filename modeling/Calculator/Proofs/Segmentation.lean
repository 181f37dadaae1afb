import Calculator.Proofs.MixedCalls
import Calculator.Proofs.Spelling
import Mathlib.Data.List.SplitBy
import Mathlib.Data.Nat.Digits.Defs

/-!
# Segments of a text

Lexing cuts a text into segments: runs of digits that are as long as can be, and single other
characters. The blanks between them are dropped. A segment is given as a token or as an error, and
whichever it is, the next call goes on after the segment.

**Theorem (`Lexer.answers_of_spells`).** The calls up to the end answer the segments, one after
another.

**Theorem (`Lexer.drain_of_entries`).** Tokens that are written with blanks around them are read
back, if there is a blank between any two literals.

Both go along the characters that a lexer has still to come, whether the next one is read from the
input or was kept after a literal.
-/

namespace Calculator

/-! ## Cutting a text -/

/-- Neighbouring characters belong together if both are digits. -/
def together (a b : Char) : Bool := a.isDigit && b.isDigit

/-- The segments of a text. -/
def segments (cs : List Char) : List (List Char) :=
  (cs.splitBy together).filter fun g => !g.all isBlank

theorem segments_single {c : Char} (hd : c.isDigit = false) (cs : List Char) :
    segments (c :: cs) = if isBlank c then segments cs else [c] :: segments cs := by
  have hsplit : (c :: cs).splitBy together = [c] :: cs.splitBy together := by
    refine List.splitBy_append (l := [c]) ?_
    intro x hx y _
    obtain rfl : c = x := Option.some.inj hx
    rw [together, hd, Bool.false_and]
  unfold segments
  rw [hsplit, List.filter_cons]
  by_cases hb : isBlank c = true
  · simp [hb]
  · simp [hb]

theorem segments_digits {d : Char} {ds rest : List Char} (hd : ∀ c ∈ d :: ds, c.isDigit = true)
    (hr : ∀ c ∈ rest.head?, c.isDigit = false) :
    segments (d :: ds ++ rest) = (d :: ds) :: segments rest := by
  have hchain : (d :: ds).IsChain fun a b => together a b = true := by
    refine (List.pairwise_of_forall_mem_list fun a ha b hb => ?_).isChain
    rw [together, hd a ha, hd b hb]
    rfl
  have hsplit : (d :: ds ++ rest).splitBy together = (d :: ds) :: rest.splitBy together := by
    rw [List.splitBy_append, List.splitBy_of_isChain (List.cons_ne_nil d ds) hchain]
    · rfl
    · intro x _ y hy
      rw [together, hr y hy, Bool.and_false]
  have hb : isBlank d = false := isBlank_eq_false_of_isDigit (hd d List.mem_cons_self)
  unfold segments
  rw [hsplit, List.filter_cons]
  simp [hb]

/-- Texts grow by a character that is no digit, or by a whole run of digits. -/
theorem segment_induction {P : List Char → Prop} (nil : P [])
    (single : ∀ c cs, c.isDigit = false → P cs → P (c :: cs))
    (digits : ∀ d ds rest, (∀ c ∈ d :: ds, c.isDigit = true) →
      (∀ c ∈ rest.head?, c.isDigit = false) → P rest → P (d :: ds ++ rest))
    (cs : List Char) : P cs := by
  induction hn : cs.length using Nat.strongRecOn generalizing cs with
  | ind n ih =>
    cases cs with
    | nil => exact nil
    | cons c cs =>
      by_cases hc : c.isDigit = true
      · have hsplit := List.takeWhile_append_dropWhile (p := Char.isDigit) (l := cs)
        rw [← hsplit, ← List.cons_append]
        refine digits c _ _ ?_ ?_ (ih _ ?_ _ rfl)
        · rw [List.forall_mem_cons]
          exact ⟨hc, List.all_eq_true.1 List.all_takeWhile⟩
        · intro x hx
          have hhead := List.head?_dropWhile_not Char.isDigit cs
          rw [Option.mem_def.1 hx] at hhead
          exact hhead
        · have := (List.dropWhile_sublist Char.isDigit (l := cs)).length_le
          rw [← hn, List.length_cons]
          omega
      · exact single c cs (by simpa using hc) (ih _ (by rw [← hn]; simp) cs rfl)

/-- **No character is lost, and none is used twice.** -/
theorem flatten_segments (cs : List Char) :
    (segments cs).flatten = cs.filter fun c => !isBlank c := by
  induction cs using segment_induction with
  | nil => rfl
  | single c cs hd ih =>
    rw [segments_single hd, List.filter_cons, ← ih]
    by_cases hb : isBlank c = true
    · simp [hb]
    · simp [hb]
  | digits d ds rest hd hr ih =>
    rw [segments_digits hd hr, List.filter_append, ← ih, List.flatten_cons]
    congr 1
    refine (List.filter_eq_self.2 fun c hc => ?_).symm
    rw [isBlank_eq_false_of_isDigit (hd c hc)]
    rfl

example : segments "12 ²007+".toList = [['1', '2'], ['²'], ['0', '0', '7'], ['+']] := by
  decide +kernel

/-! ## What segments are given as -/

/-- The number that a run of digits stands for, in decimal places. -/
def decimal (digits : List Char) : Nat :=
  Nat.ofDigits 10 (digits.reverse.map fun c => c.toNat - 48)

theorem numeralValue_eq_decimal (digits : List Char) : numeralValue digits = decimal digits := by
  rw [decimal, Nat.ofDigits_eq_foldr, List.foldr_map, List.foldr_reverse, numeralValue]
  simp only [Nat.cast_id, Nat.add_comm]

/-- What a segment is given as. -/
inductive GivenAs : List Char → Except LexicalError Token → Prop
  | literal {digits : List Char} {v : Value} : (∀ c ∈ digits, c.isDigit = true) →
      v.toInt = decimal digits → GivenAs digits (.ok (.number v))
  | tooLarge {digits : List Char} : (∀ c ∈ digits, c.isDigit = true) →
      9223372036854775808 ≤ decimal digits →
      GivenAs digits (.error (.literalTooLarge (String.ofList digits)))
  /-- One of the characters that tokens are named by. -/
  | mark {c : Char} {t : Token} : t.name.toList = [c] → GivenAs [c] (.ok t)
  | invalid {c : Char} : c.isDigit = false → isBlank c = false →
      (∀ t : Token, t.name.toList ≠ [c]) → GivenAs [c] (.error (.invalidCharacter c))

theorem GivenAs.ne_eof {g : List Char} {a : Except LexicalError Token} (h : GivenAs g a) :
    a ≠ .ok .eof := by
  rintro ⟨⟩
  cases h with
  | mark hc => simp [Token.name] at hc

theorem not_mem_of_givenAs {gs : List (List Char)} {answers : List (Except LexicalError Token)}
    (h : List.Forall₂ GivenAs gs answers) : .ok .eof ∉ answers := by
  induction h with
  | nil => exact List.not_mem_nil
  | cons ho _ ih =>
    rw [List.mem_cons, not_or]
    exact ⟨ho.ne_eof.symm, ih⟩

theorem givenAs_literalToken {digits : List Char} (hd : ∀ c ∈ digits, c.isDigit = true) :
    GivenAs digits (literalToken digits) := by
  unfold literalToken
  rw [numeralValue_eq_decimal]
  split
  · next v hv => exact .literal hd (Value.ofInt?_eq_some_iff.1 hv)
  · next hv =>
    refine .tooLarge hd ?_
    rcases Value.ofInt?_eq_none_iff.1 hv with h | h <;> omega

/-- A mark is the name of its token. -/
theorem Token.ofPunctuation?_eq_some_iff {c : Char} {t : Token} :
    ofPunctuation? c = some t ↔ t.name.toList = [c] := by
  constructor
  · intro h
    unfold ofPunctuation? at h
    split at h <;> cases h <;> decide
  · intro h
    -- Neither a literal nor the end is named by a single character.
    cases t <;> simp [name] at h <;> subst h <;> rfl

theorem givenAs_mark {c : Char} (hb : isBlank c = false) (hd : c.isDigit = false) :
    GivenAs [c] (match Token.ofPunctuation? c with
      | some t => .ok t
      | none => .error (.invalidCharacter c)) := by
  cases hp : Token.ofPunctuation? c with
  | some t => exact .mark (Token.ofPunctuation?_eq_some_iff.1 hp)
  | none =>
    refine .invalid hd hb fun t ht => ?_
    rw [Token.ofPunctuation?_eq_some_iff.2 ht] at hp
    cases hp

namespace Lexer

variable {l l' : Lexer} {cs : List Char}

/-- Calls for tokens are answered in this way, and then with `eof`. -/
def EndsAfter (l : Lexer) (answers : List (Except LexicalError Token)) : Prop :=
  (l.calls (List.replicate (answers.length + 1) .token)).1 = answers.map some ++ [some (.ok .eof)]

theorem EndsAfter.cons {a : Except LexicalError Token} {answers : List (Except LexicalError Token)}
    (h : l.call .token = (some a, l')) (h' : l'.EndsAfter answers) :
    l.EndsAfter (a :: answers) := by
  unfold EndsAfter at *
  rw [List.length_cons, List.replicate_succ, calls, h, h']
  rfl

theorem EndsAfter.of_next {answers : List (Except LexicalError Token)} (h : l.next = l'.next)
    (h' : l'.EndsAfter answers) : l.EndsAfter answers := by
  have hc : l.call .token = l'.call .token := by rw [call, call, h]
  unfold EndsAfter at *
  rw [List.replicate_succ, calls, hc]
  rwa [List.replicate_succ, calls] at h'

/-- **The calls up to the end answer the segments, one after another.** -/
theorem answers_of_spells (h : Spells l cs) :
    ∃ answers, List.Forall₂ GivenAs (segments cs) answers ∧ l.EndsAfter answers := by
  induction cs using segment_induction generalizing l with
  | nil =>
    cases h with
    | done hc =>
      refine ⟨[], .nil, ?_⟩
      have hend := next_of_readChar_none hc
      rw [EndsAfter, List.length_nil, List.replicate_succ, calls, call_of_ok hend]
      rfl
  | single c cs hd ih =>
    rw [segments_single hd]
    by_cases hb : isBlank c = true
    · obtain ⟨l', hn, hs⟩ := next_of_blank h hb
      obtain ⟨answers, ha, hg⟩ := ih hs
      exact ⟨answers, by rwa [if_pos hb], hg.of_next hn⟩
    · rw [if_neg hb]
      rw [Bool.not_eq_true] at hb
      obtain ⟨l', hs, hn⟩ := next_of_mark h hb hd
      obtain ⟨answers, ha, hg⟩ := ih hs
      refine ⟨_ :: answers, .cons (givenAs_mark hb hd) ha, hg.cons ?_⟩
      rw [call, hn]
      cases Token.ofPunctuation? c <;> rfl
  | digits d ds rest hd hr ih =>
    rw [segments_digits hd hr]
    obtain ⟨l', hs, hn⟩ := next_of_digits h hd hr
    obtain ⟨answers, ha, hg⟩ := ih hs
    refine ⟨_ :: answers, .cons (givenAs_literalToken hd) ha, hg.cons ?_⟩
    rw [call, hn]
    cases literalToken (d :: ds) <;> rfl

end Lexer

/-! ## Writing tokens -/

/-- A token that can be written, with the blanks before it. A literal may begin with zeros. -/
structure Entry where
  blanks : List Char
  zeros : Nat
  token : Token
  isBlank_of_mem : ∀ c ∈ blanks, isBlank c = true
  ne_eof : token ≠ .eof
  nonneg : ∀ v, token = .number v → 0 ≤ v.toInt

theorem not_isDigit_of_isBlank {c : Char} (h : isBlank c = true) : c.isDigit = false := by
  by_cases hd : c.isDigit = true
  · rw [isBlank_eq_false_of_isDigit hd] at h
    cases h
  · simpa using hd

theorem not_isDigit_of_mark {c : Char} {t : Token} (h : Token.ofPunctuation? c = some t) :
    c.isDigit = false := by
  unfold Token.ofPunctuation? at h
  split at h <;> cases h <;> decide

namespace Entry

/-- The token as it is written. -/
def lexeme (e : Entry) : List Char :=
  match e.token with
  | .number v => List.replicate e.zeros '0' ++ v.text.toList
  | t => t.name.toList

def text (e : Entry) : List Char := e.blanks ++ e.lexeme

/-- One entry can follow the other: there is a blank between two literals. -/
def Apart (a b : Entry) : Prop :=
  ∀ v w, a.token = .number v → b.token = .number w → b.blanks ≠ []

theorem lexeme_of_mark {e : Entry} (hn : ∀ v, e.token ≠ .number v) :
    ∃ c, e.lexeme = [c] ∧ Token.ofPunctuation? c = some e.token := by
  have he := e.ne_eof
  unfold lexeme
  cases ht : e.token with
  | number v => exact absurd ht (hn v)
  | eof => exact absurd ht he
  | _ => exact ⟨_, rfl, rfl⟩

/-- After a literal comes a blank, a mark or nothing. -/
theorem not_isDigit_of_apart {e : Entry} {v : Value} {entries : List Entry} {tail : List Char}
    (hv : e.token = .number v) (ha : ∀ b ∈ entries.head?, e.Apart b)
    (ht : ∀ c ∈ tail, isBlank c = true) :
    ∀ c ∈ (entries.flatMap text ++ tail).head?, c.isDigit = false := by
  intro c hc
  cases entries with
  | nil => exact not_isDigit_of_isBlank (ht c (List.mem_of_mem_head? hc))
  | cons b entries =>
    rw [List.flatMap_cons, text] at hc
    cases hb : b.blanks with
    | cons c' blanks =>
      rw [hb] at hc
      obtain rfl : c' = c := Option.some.inj hc
      exact not_isDigit_of_isBlank (b.isBlank_of_mem c' (hb ▸ List.mem_cons_self))
    | nil =>
      obtain ⟨c', hl, hp⟩ := lexeme_of_mark fun w hw => ha b rfl v w hv hw hb
      rw [hb, hl] at hc
      obtain rfl : c' = c := Option.some.inj hc
      exact not_isDigit_of_mark hp

end Entry

namespace Lexer

variable {l : Lexer} {rest : List Char}

theorem drain_of_blanks {blanks : List Char} (h : Spells l (blanks ++ rest))
    (hb : ∀ c ∈ blanks, isBlank c = true) : ∃ l', Spells l' rest ∧ l.drain = l'.drain := by
  induction blanks generalizing l with
  | nil => exact ⟨l, h, rfl⟩
  | cons c blanks ih =>
    rw [List.forall_mem_cons] at hb
    obtain ⟨l₁, h₁, hd₁⟩ := drain_of_blank h hb.1
    obtain ⟨l', h', hd⟩ := ih h₁ hb.2
    exact ⟨l', h', hd₁.trans hd⟩

/-- An entry is read back. A literal needs something else than a digit after it. -/
theorem drain_of_entry {e : Entry} (h : Spells l (e.text ++ rest))
    (hr : ∀ v, e.token = .number v → ∀ c ∈ rest.head?, c.isDigit = false) :
    ∃ l', Spells l' rest ∧ l.drain = (e.token :: l'.drain.1, l'.drain.2) := by
  rw [Entry.text, List.append_assoc] at h
  obtain ⟨l₁, h₁, hd⟩ := drain_of_blanks h e.isBlank_of_mem
  rw [hd]
  by_cases hn : ∃ v, e.token = .number v
  · obtain ⟨v, hv⟩ := hn
    rw [Entry.lexeme, hv] at h₁
    rw [hv]
    exact drain_of_number e.zeros h₁ (e.nonneg v hv) (hr v hv)
  · obtain ⟨c, hc, ht⟩ := e.lexeme_of_mark fun v hv => hn ⟨v, hv⟩
    rw [hc] at h₁
    exact drain_of_mark h₁ ht

/-- **Tokens that are written with blanks around them are read back.** -/
theorem drain_of_entries {entries : List Entry} {tail : List Char}
    (h : Spells l (entries.flatMap Entry.text ++ tail)) (ha : entries.IsChain Entry.Apart)
    (ht : ∀ c ∈ tail, isBlank c = true) : l.drain = (entries.map Entry.token, none) := by
  induction entries generalizing l with
  | nil =>
    rw [List.flatMap_nil, List.nil_append, ← List.append_nil tail] at h
    obtain ⟨l', h', hd⟩ := drain_of_blanks h ht
    cases h' with
    | done hc => rw [hd, drain_of_eof (next_of_readChar_none hc), List.map_nil]
  | cons e entries ih =>
    obtain ⟨hnext, ha⟩ := List.isChain_cons.1 ha
    rw [List.flatMap_cons, List.append_assoc] at h
    obtain ⟨l', h', hd⟩ := drain_of_entry h fun v hv => Entry.not_isDigit_of_apart hv hnext ht
    rw [hd, ih h' ha, List.map_cons]

end Lexer

theorem tokenize_entries {entries : List Entry} {tail : List Char}
    (ha : entries.IsChain Entry.Apart) (ht : ∀ c ∈ tail, isBlank c = true) :
    tokenize (String.ofList (entries.flatMap Entry.text ++ tail)) =
      .ok (entries.map Entry.token) := by
  have hs := Lexer.spells_ofString (String.ofList (entries.flatMap Entry.text ++ tail))
  rw [String.toList_ofList] at hs
  rw [tokenize, Lexer.drain_of_entries hs ha ht]

/-- **Lexing is segmentation.** The segments of a text together are the text without its blanks, and
the calls up to the first `eof` give each of them as its token or error, in order, and go on after
errors. So tokens are read back from every way to write them that has a blank between any two
literals. -/
theorem lexing_is_segmentation :
    (∀ text : String,
      (segments text.toList).flatten = text.toList.filter (fun c => !isBlank c) ∧
      ∃ answers, List.Forall₂ GivenAs (segments text.toList) answers ∧ .ok .eof ∉ answers ∧
        (Lexer.calls { reader := .ofString text } (List.replicate (answers.length + 1) .token)).1 =
          answers.map some ++ [some (.ok .eof)]) ∧
    ∀ (entries : List Entry) (tail : List Char), entries.IsChain Entry.Apart →
      (∀ c ∈ tail, isBlank c = true) →
      tokenize (String.ofList (entries.flatMap Entry.text ++ tail)) =
        .ok (entries.map Entry.token) := by
  refine ⟨fun text => ⟨flatten_segments _, ?_⟩, fun entries tail => tokenize_entries⟩
  obtain ⟨answers, ha, hg⟩ := Lexer.answers_of_spells (Lexer.spells_ofString text)
  exact ⟨answers, ha, not_mem_of_givenAs ha, hg⟩

/-- Two literals with a blank between them, the first with zeros, and a mark right after them. -/
theorem lexing_is_segmentation_zeros :
    let seven : Entry := ⟨[], 2, .number ⟨7, rfl⟩, nofun, nofun, by rintro _ ⟨⟩; decide⟩
    let twelve : Entry := ⟨[' '], 0, .number ⟨12, rfl⟩, List.forall_mem_singleton.2 rfl, nofun,
      by rintro _ ⟨⟩; decide⟩
    let plus : Entry := ⟨[], 0, .plus, nofun, nofun, nofun⟩
    [seven, twelve, plus].IsChain Entry.Apart ∧ (∀ c ∈ ['\n'], isBlank c = true) ∧
      String.ofList ([seven, twelve, plus].flatMap Entry.text ++ ['\n']) = "007 12+\n" ∧
      tokenize "007 12+\n" = .ok [.number ⟨7, rfl⟩, .number ⟨12, rfl⟩, .plus] := by
  intro seven twelve plus
  have ha : [seven, twelve, plus].IsChain Entry.Apart := by
    simp [Entry.Apart, seven, twelve, plus]
  have hb : ∀ c ∈ ['\n'], isBlank c = true := List.forall_mem_singleton.2 rfl
  have ht : String.ofList ([seven, twelve, plus].flatMap Entry.text ++ ['\n']) = "007 12+\n" := by
    decide +kernel
  refine ⟨ha, hb, ht, ?_⟩
  rw [← ht, lexing_is_segmentation.2 [seven, twelve, plus] ['\n'] ha hb]
  rfl

end Calculator
