import Calculator.Proofs.Lexemes
import Calculator.Proofs.Reparsing
import Calculator.Proofs.Unread

/-!
# Decoding bytes

A lexer takes bytes one by one and makes characters of them. `Utf8.groups` says without a lexer
which bytes belong together and what each group stands for, and the lexer does just that. So all
questions about malformed input are about lists of groups.

**Theorem (`Lexer.decodes_groups`).** The characters that are read come from these groups.

**Theorem (`Lexer.lexesTo_of_drain`).** Characters that are lexed without an error are lexed to
tokens, and then each of them is one that can stand in a program.

**Theorem (`decoding_is_faithful`).** No byte is passed over, malformed bytes are never taken for a
character, and where lexing or parsing succeeds there were none.
-/

namespace Calculator

open Fed

/-! ## Groups of bytes -/

namespace Utf8

/-- The groups that bytes are cut into, with the characters they stand for. One that the bytes end
in stands for the replacement. -/
def groups : List UInt8 → List (List UInt8 × Char)
  | [] => []
  | lead :: bs =>
    if following lead ≤ bs.length then
      (lead :: bs.take (following lead), decode (lead :: bs.take (following lead))) ::
        groups (bs.drop (following lead))
    else [(lead :: bs, replacement)]
termination_by bs => bs.length
decreasing_by
  rw [List.length_drop, List.length_cons]
  omega

/-- **The groups cover all bytes.** -/
theorem flatMap_groups (bs : List UInt8) : (groups bs).flatMap Prod.fst = bs := by
  fun_induction groups bs with
  | case1 => rfl
  | case2 lead bs h ih =>
    rw [List.flatMap_cons, ih, List.cons_append, List.take_append_drop]
  | case3 lead bs h => rw [List.flatMap_singleton]

/-- **Only its own encoding stands for a character.** -/
theorem eq_utf8EncodeChar_of_mem_groups {bs : List UInt8} {g : List UInt8 × Char}
    (h : g ∈ groups bs) :
    g.1 ≠ [] ∧ (g.2 ≠ replacement → g.1 = String.utf8EncodeChar g.2) := by
  fun_induction groups bs with
  | case1 => cases h
  | case2 lead bs hlength ih =>
    rcases List.mem_cons.1 h with rfl | h
    · exact ⟨List.cons_ne_nil _ _, fun hc => (utf8EncodeChar_of_decode rfl hc).symm⟩
    · exact ih h
  | case3 lead bs hlength =>
    cases List.mem_singleton.1 h
    exact ⟨List.cons_ne_nil _ _, fun hc => absurd rfl hc⟩

/-- The bytes of a text are cut at its characters. -/
theorem groups_encode (cs : List Char) :
    (groups (cs.flatMap String.utf8EncodeChar)).map Prod.snd = cs := by
  induction cs with
  | nil => rw [List.flatMap_nil, groups, List.map_nil]
  | cons c cs ih =>
    obtain ⟨lead, group, hc, hlength⟩ := exists_utf8EncodeChar c
    have hdecode : decode (lead :: group) = c := hc ▸ decode_utf8EncodeChar c
    rw [List.flatMap_cons, hc, List.cons_append, groups, hlength, if_pos (by simp),
      List.take_left, List.drop_left, List.map_cons, ih, hdecode]

/-- Groups among which none stands for the replacement are the encodings of their characters. -/
theorem flatMap_of_subset_groups {bs : List UInt8} {gs : List (List UInt8 × Char)}
    (h : gs ⊆ groups bs) (hr : replacement ∉ gs.map Prod.snd) :
    gs.flatMap Prod.fst = (gs.map Prod.snd).flatMap String.utf8EncodeChar := by
  rw [List.flatMap_map]
  refine List.flatMap_congr fun g hg => (eq_utf8EncodeChar_of_mem_groups (h hg)).2 fun hc => hr ?_
  exact hc ▸ List.mem_map_of_mem hg

/-- The bytes begin with the encodings of the characters they begin with. -/
theorem isPrefix_of_groups {bs : List UInt8} {cs : List Char}
    (h : cs <+: (groups bs).map Prod.snd) (hr : replacement ∉ cs) :
    cs.flatMap String.utf8EncodeChar <+: bs := by
  obtain ⟨rest, hrest⟩ := h
  obtain ⟨front, back, hgroups, rfl, rfl⟩ := List.map_eq_append_iff.1 hrest.symm
  have hfront : front ⊆ groups bs := hgroups ▸ List.subset_append_left front back
  have hbs := flatMap_groups bs
  rw [hgroups, List.flatMap_append, flatMap_of_subset_groups hfront hr] at hbs
  exact ⟨_, hbs⟩

example : groups [0x31, 0xc0, 0xae, 0xc2, 0xb2, 0xe2, 0x2e] =
    [([0x31], '1'), ([0xc0, 0xae], replacement), ([0xc2, 0xb2], '²'),
      ([0xe2, 0x2e], replacement)] := by
  decide +kernel

end Utf8

/-! ## Reading characters -/

def Event.byte? : Event → Option UInt8
  | .byte b => some b
  | _ => none

theorem filterMap_byte? (bs : List UInt8) : (bs.map Event.byte).filterMap Event.byte? = bs := by
  rw [List.filterMap_map]
  exact List.filterMap_some

/-- Bytes at hand are given one after another. -/
theorem Feed.gives_bytes (bs rest : List UInt8) (reads : List Read) :
    Gives ⟨⟨bs ++ rest, reads⟩, false⟩ (bs.map .byte) ⟨⟨rest, reads⟩, false⟩ := by
  induction bs with
  | nil => exact .refl _
  | cons b bs ih => exact .step rfl ih

namespace Lexer

/-- The characters that a lexer has still to come, each with the bytes that are given while it is
read. -/
inductive Decodes : Lexer → List (List UInt8 × Char) → Prop
  | done {l l' : Lexer} : l.readChar = .ok none l' → Decodes l []
  | more {l l' : Lexer} {c : Char} {es : List Event} {groups : List (List UInt8 × Char)} :
      l.readChar = .ok (some c) l' → (feed l).Gives es (feed l') → Decodes l' groups →
      Decodes l ((es.filterMap Event.byte?, c) :: groups)

theorem Decodes.spells {l : Lexer} {groups : List (List UInt8 × Char)} (h : Decodes l groups) :
    Spells l (groups.map Prod.snd) := by
  induction h with
  | done hc => exact .done hc
  | more hc _ _ ih => exact .more hc ih

/-- A group that the end of the input cuts off. -/
theorem readGroup_truncated {bs : List UInt8} {missing : Nat} (group : List UInt8)
    (h : bs.length < missing) : readGroup group missing ⟨⟨bs, []⟩, none, false⟩ =
      .ok (some Utf8.replacement) ⟨⟨[], []⟩, none, true⟩ := by
  induction bs generalizing group missing with
  | nil =>
    obtain ⟨missing, rfl⟩ := Nat.exists_eq_add_one_of_ne_zero (Nat.ne_of_gt h)
    rfl
  | cons b bs ih =>
    obtain ⟨missing, rfl⟩ := Nat.exists_eq_add_one_of_ne_zero (Nat.ne_of_gt (Nat.zero_lt_of_lt h))
    exact ih (group ++ [b]) (Nat.lt_of_succ_lt_succ h)

theorem readChar_of_next {r r' : Reader} {lead : UInt8} (h : r.next = .ok (some lead) r') :
    readChar { reader := r } = readGroup [lead] (Utf8.following lead) { reader := r' } := by
  rw [readChar]
  simp only [h]
  rfl

/-- **The characters that are read come from the groups.** -/
theorem decodes_groups {bs : List UInt8} {r : Reader} (hr : r.next = Reader.next ⟨bs, []⟩) :
    Decodes { reader := r } (Utf8.groups bs) := by
  fun_induction Utf8.groups bs generalizing r with
  | case1 =>
    have hread : readChar { reader := r } = .ok none ⟨⟨[], []⟩, none, true⟩ := by
      rw [readChar]
      simp only [hr]
      rfl
    exact .done hread
  | case2 lead bs hlength ih =>
    have hbs := List.take_append_drop (Utf8.following lead) bs
    have hread := readGroup_eq [lead] (bs.take (Utf8.following lead))
      (bs.drop (Utf8.following lead)) [] none false
    rw [hbs, List.length_take, Nat.min_eq_left hlength, ← readChar_of_next hr] at hread
    have hgives := Feed.gives_bytes (bs.take (Utf8.following lead))
      (bs.drop (Utf8.following lead)) []
    rw [hbs] at hgives
    have hmore := Decodes.more hread (gives_byte rfl hr hgives) (ih rfl)
    rwa [← List.map_cons, filterMap_byte?] at hmore
  | case3 lead bs hlength =>
    -- The end is reported within the group, and is no byte of it.
    have hread := readGroup_truncated [lead] (Nat.lt_of_not_le hlength)
    rw [← readChar_of_next hr] at hread
    have hgives := (Feed.gives_bytes bs [] []).trans (.single rfl)
    rw [List.append_nil] at hgives
    have hmore := Decodes.more hread (gives_byte rfl hr hgives) (.done rfl)
    rwa [← List.cons_append, ← List.map_cons, List.filterMap_append, filterMap_byte?,
      List.filterMap_cons_none rfl, List.filterMap_nil, List.append_nil] at hmore

theorem decodes_ofBytes (bs : List UInt8) :
    Decodes { reader := .ofBytes bs } (Utf8.groups bs) :=
  decodes_groups (by cases bs <;> rfl)

end Lexer

/-! ## Characters of programs -/

/-- The characters that can stand in a program: blanks, digits and marks. -/
def IsPlain (c : Char) : Prop :=
  isBlank c = true ∨ c.isDigit = true ∨ c ∈ ['+', '-', '*', '/', '(', ')', ';', '|', '^', '.']

theorem isPlain_of_mark {c : Char} {t : Token} (h : Token.ofPunctuation? c = some t) :
    IsPlain c := by
  unfold Token.ofPunctuation? at h
  split at h <;> cases h <;> exact .inr (.inr (by decide))

theorem GivenAs.isPlain {g : List Char} {t : Token} (h : GivenAs g (.ok t)) :
    ∀ c ∈ g, IsPlain c := by
  intro c hc
  cases h with
  | literal hd => exact .inr (.inl (hd c hc))
  | mark hn =>
    cases List.mem_singleton.1 hc
    exact isPlain_of_mark (Token.ofPunctuation?_eq_some_iff.2 hn)

theorem LexesTo.isPlain {cs : List Char} {ts : List Token} (h : LexesTo cs ts) :
    ∀ c ∈ cs, IsPlain c := by
  intro c hc
  by_cases hb : isBlank c = true
  · exact .inl hb
  have hflat : c ∈ (segments cs).flatten := by
    rw [flatten_segments, List.mem_filter]
    exact ⟨hc, by simpa using hb⟩
  obtain ⟨g, hg, hcg⟩ := List.mem_flatten.1 hflat
  obtain ⟨a, ha, hga⟩ := exists_givenAs h hg
  obtain ⟨t, -, rfl⟩ := List.mem_map.1 ha
  exact hga.isPlain c hcg

theorem replacement_not_mem {cs : List Char} (h : ∀ c ∈ cs, IsPlain c) :
    Utf8.replacement ∉ cs := by
  intro hmem
  rcases h _ hmem with hb | hd | hm
  · exact absurd hb (by decide)
  · exact absurd hd (by decide)
  · exact absurd hm (by decide)

/-- **Characters that are lexed without an error are lexed to their tokens.** -/
theorem Lexer.lexesTo_of_drain {l : Lexer} {cs : List Char} {ts : List Token} (h : Spells l cs)
    (hd : l.drain = (ts, none)) : LexesTo cs ts := by
  induction cs using segment_induction generalizing l ts with
  | nil =>
    cases h with
    | done hc =>
      rw [drain_of_eof (next_of_readChar_none hc)] at hd
      cases hd
      exact .nil
  | single c cs hc ih =>
    by_cases hb : isBlank c = true
    · obtain ⟨l', hs, hdrain⟩ := drain_of_blank h hb
      exact (ih hs (hdrain ▸ hd)).blank hb
    · cases ht : Token.ofPunctuation? c with
      | none =>
        obtain ⟨l', -, hn⟩ := next_of_mark h (by simpa using hb) hc
        rw [ht] at hn
        rw [drain_of_error hn] at hd
        cases hd
      | some t =>
        obtain ⟨l', hs, hdrain⟩ := drain_of_mark h ht
        rw [hdrain, Prod.mk.injEq] at hd
        obtain ⟨rfl, hnone⟩ := hd
        exact (ih hs (Prod.ext rfl hnone)).mark ht
  | digits d ds rest hdigits hr ih =>
    obtain ⟨l', hs, hn⟩ := next_of_digits h hdigits hr
    have hgiven := givenAs_literalToken hdigits
    rw [LexesTo, segments_digits hdigits hr]
    cases hl : literalToken (d :: ds) with
    | error e =>
      rw [hl] at hn
      rw [drain_of_error hn] at hd
      cases hd
    | ok t =>
      rw [hl] at hn hgiven
      rw [drain_of_token hn fun he => hgiven.ne_eof (congrArg _ he), Prod.mk.injEq] at hd
      obtain ⟨rfl, hnone⟩ := hd
      exact .cons hgiven (ih hs (Prod.ext rfl hnone))

/-! ## Inputs that are accepted -/

/-- Bytes that are lexed without an error are the encoding of a text. -/
theorem encoded_of_drain {bs : List UInt8} {ts : List Token}
    (h : Lexer.drain { reader := .ofBytes bs } = (ts, none)) :
    ∃ text, bs = Utf8.encode text ∧ ∀ c ∈ text.toList, IsPlain c := by
  have hplain := (Lexer.lexesTo_of_drain (Lexer.decodes_ofBytes bs).spells h).isPlain
  refine ⟨String.ofList ((Utf8.groups bs).map Prod.snd), ?_, ?_⟩
  · rw [Utf8.encode, String.toList_ofList,
      ← Utf8.flatMap_of_subset_groups (List.Subset.refl _) (replacement_not_mem hplain),
      Utf8.flatMap_groups]
  · rwa [String.toList_ofList]

/-- Bytes that are a program begin with the encoding of a text that is lexed to its tokens, and of a
stop. -/
theorem encoded_of_parse {bs : List UInt8} {p : Program} (h : parse (.ofBytes bs) = .ok p) :
    ∃ text rest, bs = Utf8.encode (text ++ ".") ++ rest ∧ LexesTo text.toList p.tokens := by
  obtain ⟨cs, ho, hlex⟩ := opens_of_parse h
  have hplain : ∀ c ∈ cs ++ ['.'], IsPlain c := (hlex.append_mark rfl .nil).isPlain
  have hpre := ho.isPrefix (Lexer.decodes_ofBytes bs).spells
  obtain ⟨rest, hrest⟩ := Utf8.isPrefix_of_groups hpre (replacement_not_mem hplain)
  refine ⟨String.ofList cs, rest, ?_, by rwa [String.toList_ofList]⟩
  rw [Utf8.encode, String.toList_append, String.toList_ofList, ← hrest]
  rfl

/-- The stop that ends a program is a byte of the input. What comes after it is left, and can be
replaced. -/
theorem unread_of_parse {bs : List UInt8} {p : Program} (h : parse (.ofBytes bs) = .ok p) :
    ∃ head rest, bs = head ++ 0x2e :: rest ∧ ∀ rest',
      parse (.ofBytes (head ++ 0x2e :: rest')) = .ok p ∧
      (run (.ofBytes (head ++ 0x2e :: rest'))).unread = ⟨rest', []⟩ := by
  cases hw : Grammar.wholeProgram (.start (.ofBytes bs)) with
  | error e c =>
    rw [parse, hw] at h
    cases h
  | ok p' c =>
    obtain ⟨taken, head, ⟨rest, reads⟩, hr, -, hrest⟩ := wholeProgram_stopThen hw
    have hreads := congrArg Reader.upcoming hr
    cases taken with
    | cons read taken => cases taken <;> cases hreads
    | nil =>
      cases hreads
      refine ⟨head, rest, rfl, fun rest' => ?_⟩
      have hon := hrest ⟨rest', []⟩
      exact ⟨(parse_of_onFeed hon).trans h, congrArg Run.unread (run_of_onFeed hon)⟩

/-- **The bytes of a program up to its stop are the encoding of a text.** -/
theorem encoded_up_to_stop {bs : List UInt8} {p : Program} (h : parse (.ofBytes bs) = .ok p) :
    ∃ text rest, bs = Utf8.encode (text ++ ".") ++ rest ∧
      (run (.ofBytes bs)).unread = ⟨rest, []⟩ ∧ LexesTo text.toList p.tokens := by
  obtain ⟨head, rest, rfl, hall⟩ := unread_of_parse h
  obtain ⟨hshort, hnone⟩ := hall []
  obtain ⟨text, more, hmore, hlex⟩ := encoded_of_parse hshort
  obtain ⟨-, -, -, hnormal, hdepth⟩ := tree_of_parse h
  -- The text alone is the same program, so its stop is the one that was met.
  have htext : parse (.ofString (text ++ ".")) = .ok p := by
    have hstop : LexesTo (text ++ ".").toList (p.tokens ++ [.stop]) := by
      rw [String.toList_append]
      exact hlex.append_mark rfl .nil
    exact parse_of_tokens hnormal hdepth (tokens_of_lexesTo hstop ▸ List.prefix_refl _)
  obtain ⟨head', rest', hhead, hall'⟩ := unread_of_parse htext
  have hleft := (hall' (rest' ++ more)).2
  rw [← List.cons_append, ← List.append_assoc, ← hhead, ← hmore, hnone, Reader.mk.injEq] at hleft
  obtain rfl : more = [] := (List.append_eq_nil_iff.1 hleft.1.symm).2
  rw [List.append_nil] at hmore
  refine ⟨text, rest, ?_, (hall rest).2, hlex⟩
  rw [← hmore, List.append_assoc]
  rfl

/-- **Decoding is faithful, and malformed input is never accepted.** Whatever the bytes are, the
characters that are read come from groups that cover all of them. A group stands for a character
other than the replacement only if it is the encoding of that character, and the encoding of a text
gives its characters. So bytes that are lexed to the end without an error are the encoding of a
text, and if they are a program, then they are up to its stop, and hold nothing but blanks, digits
and marks. -/
theorem decoding_is_faithful (bs : List UInt8) :
    (Lexer.Decodes { reader := .ofBytes bs } (Utf8.groups bs) ∧
      (Utf8.groups bs).flatMap Prod.fst = bs ∧
      (∀ g ∈ Utf8.groups bs,
        g.1 ≠ [] ∧ (g.2 ≠ Utf8.replacement → g.1 = String.utf8EncodeChar g.2)) ∧
      ∀ text, bs = Utf8.encode text → (Utf8.groups bs).map Prod.snd = text.toList) ∧
    (∀ ts, Lexer.drain { reader := .ofBytes bs } = (ts, none) →
      ∃ text, bs = Utf8.encode text ∧ ∀ c ∈ text.toList, IsPlain c) ∧
    ∀ p, parse (.ofBytes bs) = .ok p → ∃ text rest, bs = Utf8.encode (text ++ ".") ++ rest ∧
      (run (.ofBytes bs)).unread = ⟨rest, []⟩ ∧ '.' ∉ text.toList ∧
      ∀ c ∈ text.toList, IsPlain c := by
  refine ⟨⟨Lexer.decodes_ofBytes bs, Utf8.flatMap_groups bs,
    fun g => Utf8.eq_utf8EncodeChar_of_mem_groups, ?_⟩, fun ts => encoded_of_drain, fun p hp => ?_⟩
  · rintro text rfl
    exact Utf8.groups_encode text.toList
  · obtain ⟨text, rest, hbs, hunread, hlex⟩ := encoded_up_to_stop hp
    exact ⟨text, rest, hbs, hunread, hlex.not_mem (tree_of_parse hp).2.1, hlex.isPlain⟩

/-- A blank of two bytes is lexed. The byte after the stop is malformed, and is not read. -/
theorem decoding_is_faithful_junk :
    let spaced : List UInt8 := [0xc2, 0xa0, 0x32]
    let program : List UInt8 := [0xc2, 0xa0, 0x32, 0x2e, 0xff]
    (spaced = Utf8.encode "\u00a02" ∧
      (Utf8.groups spaced).map Prod.snd = "\u00a02".toList) ∧
    (Lexer.drain { reader := .ofBytes spaced } = ([.number ⟨2, rfl⟩], none) ∧
      ∃ text, spaced = Utf8.encode text ∧ ∀ c ∈ text.toList, IsPlain c) ∧
    parse (.ofBytes program) = .ok (.single (.single (.single (.number ⟨2, rfl⟩)))) ∧
      ∃ text rest, program = Utf8.encode (text ++ ".") ++ rest ∧
        (run (.ofBytes program)).unread = ⟨rest, []⟩ ∧ '.' ∉ text.toList ∧
        ∀ c ∈ text.toList, IsPlain c := by
  intro spaced program
  have he : spaced = Utf8.encode "\u00a02" := by decide +kernel
  have hd : Lexer.drain { reader := .ofBytes spaced } = ([.number ⟨2, rfl⟩], none) := by
    decide +kernel
  have hp : parse (.ofBytes program) = .ok (.single (.single (.single (.number ⟨2, rfl⟩)))) := by
    decide +kernel
  obtain ⟨⟨-, -, -, hchars⟩, hlexed, -⟩ := decoding_is_faithful spaced
  exact ⟨⟨he, hchars _ he⟩, ⟨hd, hlexed _ hd⟩, hp, (decoding_is_faithful program).2.2 _ hp⟩

end Calculator
