import Calculator.Proofs.Acceptance
import Calculator.Proofs.Segmentation

/-!
# The characters of tokens

Which characters are lexed as which tokens. `LexesTo` says it of characters alone, through their
segments, so characters can be put together and their tokens with them, as long as no digit comes
right after what is in front.

**Theorem (`Lexer.drain_of_lexesTo`).** A text that is lexed to some tokens has these tokens.

**Theorem (`Lexer.opens_of_drain`).** Tokens that were read from any input, up to a stop, were read
from characters that are lexed to them.

The second is for inputs that are no texts: what comes after the stop may be anything, and a failed
read too. So all that is known of such an input are the characters it begins with.
-/

namespace Calculator

/-! ## Lexing characters -/

/-- The characters are lexed as these tokens, with no error among them. -/
def LexesTo (cs : List Char) (ts : List Token) : Prop :=
  List.Forall₂ GivenAs (segments cs) (ts.map .ok)

/-- A segment does not reach past the beginning of what starts with no digit. -/
theorem segments_append {cs rest : List Char} (hr : ∀ c ∈ rest.head?, c.isDigit = false) :
    segments (cs ++ rest) = segments cs ++ segments rest := by
  have hsplit : (cs ++ rest).splitBy together = cs.splitBy together ++ rest.splitBy together := by
    refine List.splitBy_append fun x _ y hy => ?_
    rw [together, hr y hy, Bool.and_false]
  rw [segments, hsplit, List.filter_append]
  rfl

theorem segments_stop (cs : List Char) : segments (cs ++ ['.']) = segments cs ++ [['.']] :=
  segments_append (by simp)

theorem GivenAs.eq_number {d : Char} {ds : List Char} {t : Token}
    (h : GivenAs (d :: ds) (.ok t)) (hd : d.isDigit = true) :
    ∃ v, t = .number v ∧ v.toInt = numeralValue (d :: ds) := by
  cases h with
  | @literal _ v _ hv => exact ⟨v, rfl, by rw [numeralValue_eq_decimal, hv]⟩
  | mark hc =>
    rw [not_isDigit_of_mark (Token.ofPunctuation?_eq_some_iff.2 hc)] at hd
    cases hd

theorem GivenAs.eq_mark {c : Char} {t : Token} (h : GivenAs [c] (.ok t))
    (hd : c.isDigit = false) : Token.ofPunctuation? c = some t := by
  cases h with
  | literal hc =>
    rw [hc c List.mem_cons_self] at hd
    cases hd
  | mark hc => exact Token.ofPunctuation?_eq_some_iff.2 hc

theorem exists_givenAs {gs : List (List Char)} {answers : List (Except LexicalError Token)}
    (h : List.Forall₂ GivenAs gs answers) {g : List Char} (hg : g ∈ gs) :
    ∃ a ∈ answers, GivenAs g a := by
  induction h with
  | nil => cases hg
  | @cons _ a _ _ ha _ ih =>
    rcases List.mem_cons.1 hg with rfl | hg
    · exact ⟨a, List.mem_cons_self, ha⟩
    · obtain ⟨b, hb, hgb⟩ := ih hg
      exact ⟨b, List.mem_cons_of_mem a hb, hgb⟩

namespace LexesTo

variable {c : Char} {cs rest : List Char} {t : Token} {ts us : List Token}

theorem nil : LexesTo [] [] := List.Forall₂.nil

theorem append (h : LexesTo cs ts) (h' : LexesTo rest us)
    (hr : ∀ c ∈ rest.head?, c.isDigit = false) : LexesTo (cs ++ rest) (ts ++ us) := by
  rw [LexesTo, segments_append hr, List.map_append]
  exact List.rel_append h h'

theorem mark (ht : Token.ofPunctuation? c = some t) (h : LexesTo cs ts) :
    LexesTo (c :: cs) (t :: ts) := by
  have hc : c.isDigit = false ∧ isBlank c = false := by
    unfold Token.ofPunctuation? at ht
    split at ht <;> cases ht <;> decide
  rw [LexesTo, segments_single hc.1, hc.2]
  exact .cons (.mark (Token.ofPunctuation?_eq_some_iff.1 ht)) h

theorem blank (hb : isBlank c = true) (h : LexesTo cs ts) : LexesTo (c :: cs) ts := by
  rw [LexesTo, segments_single (not_isDigit_of_isBlank hb), hb]
  exact h

theorem blanks {bs : List Char} (hb : ∀ c ∈ bs, isBlank c = true) (h : LexesTo cs ts) :
    LexesTo (bs ++ cs) ts := by
  induction bs with
  | nil => exact h
  | cons b bs ih =>
    rw [List.forall_mem_cons] at hb
    exact (ih hb.2).blank hb.1

/-- Characters with a mark after them, whatever comes then. -/
theorem append_mark (h : LexesTo cs ts) (ht : Token.ofPunctuation? c = some t)
    (h' : LexesTo rest us) : LexesTo (cs ++ c :: rest) (ts ++ t :: us) := by
  refine h.append (h'.mark ht) fun x hx => ?_
  obtain rfl : c = x := Option.some.inj hx
  exact not_isDigit_of_mark ht

/-- A stop is written with its own character only. -/
theorem not_mem (h : LexesTo cs ts) (hs : .stop ∉ ts) : '.' ∉ cs := by
  intro hmem
  have hflat : '.' ∈ (segments cs).flatten := by
    rw [flatten_segments, List.mem_filter]
    exact ⟨hmem, rfl⟩
  obtain ⟨g, hg, hc⟩ := List.mem_flatten.1 hflat
  obtain ⟨a, ha, hga⟩ := exists_givenAs h hg
  obtain ⟨t, ht, rfl⟩ := List.mem_map.1 ha
  cases hga with
  | literal hd => exact nomatch hd '.' hc
  | mark hn =>
    cases List.mem_singleton.1 hc
    cases Token.ofPunctuation?_eq_some_iff.2 hn
    exact hs ht

end LexesTo

namespace Lexer

variable {l l' : Lexer} {cs rest : List Char} {t : Token} {ts : List Token}

/-- **A text has the tokens that its characters are lexed to.** -/
theorem drain_of_lexesTo (h : Spells l cs) (ht : LexesTo cs ts) : l.drain = (ts, none) := by
  induction cs using segment_induction generalizing l ts with
  | nil =>
    cases h with
    | done hc =>
      obtain rfl : ts = [] := List.map_eq_nil_iff.1 (List.forall₂_nil_left_iff.1 ht)
      exact drain_of_eof (next_of_readChar_none hc)
  | single c cs hd ih =>
    rw [LexesTo, segments_single hd] at ht
    by_cases hb : isBlank c = true
    · rw [if_pos hb] at ht
      obtain ⟨l', hs, hdrain⟩ := drain_of_blank h hb
      rw [hdrain, ih hs ht]
    · rw [if_neg hb] at ht
      cases ts with
      | nil => cases ht
      | cons t ts =>
        rw [List.map_cons, List.forall₂_cons] at ht
        obtain ⟨l', hs, hdrain⟩ := drain_of_mark h (ht.1.eq_mark hd)
        rw [hdrain, ih hs ht.2]
  | digits d ds rest hd hr ih =>
    rw [LexesTo, segments_digits hd hr] at ht
    cases ts with
    | nil => cases ht
    | cons t ts =>
      rw [List.map_cons, List.forall₂_cons] at ht
      obtain ⟨v, rfl, hv⟩ := ht.1.eq_number (hd d List.mem_cons_self)
      obtain ⟨l', hs, hdrain⟩ := drain_of_literal h hd hr hv
      rw [hdrain, ih hs ht.2]

/-! ## The first characters of an input -/

/-- The characters that a lexer has to come first. What comes after them is left open. -/
inductive Opens : Lexer → List Char → Prop
  | nil (l : Lexer) : Opens l []
  | cons {l l' : Lexer} {c : Char} {cs : List Char} :
      l.readChar = .ok (some c) l' → Opens l' cs → Opens l (c :: cs)

theorem Opens.isPrefix {ds : List Char} (h : Opens l cs) (hs : Spells l ds) : cs <+: ds := by
  induction h generalizing ds with
  | nil l => exact List.nil_prefix
  | cons hc _ ih =>
    cases hs with
    | done hc' => rw [hc] at hc'; cases hc'
    | more hc' hs' =>
      rw [hc] at hc'
      cases hc'
      exact List.cons_prefix_cons.2 ⟨rfl, ih hs'⟩

/-- The digits that a literal takes, and a character after them that is none. -/
theorem opens_of_readDigits {before digits : List Char}
    (h : readDigits before l = .ok digits l') (hr : Opens l' rest) :
    ∃ ds, digits = before.reverse ++ ds ∧ (∀ c ∈ ds, c.isDigit = true) ∧
      (∀ c ∈ rest.head?, c.isDigit = false) ∧ Opens l (ds ++ rest) := by
  fun_induction readDigits before l with
  | case1 before l e l₁ hc => cases h
  | case2 before l l₁ hc =>
    cases h
    -- Nothing comes after the end of the input.
    have hnil : rest = [] := List.prefix_nil.1 (hr.isPrefix (spells_of_end hc))
    subst hnil
    exact ⟨[], by simp, by simp, by simp, .nil l⟩
  | case3 before l c l₁ hc hd ih =>
    obtain ⟨ds, rfl, hds, hrest, ho⟩ := ih h
    refine ⟨c :: ds, by simp, ?_, hrest, .cons hc ho⟩
    exact List.forall_mem_cons.2 ⟨hd, hds⟩
  | case4 before l c l₁ hc hd =>
    cases h
    refine ⟨[], by simp, by simp, ?_, ?_⟩
    · cases hr with
      | nil => simp
      | cons hc' _ => cases hc'; simpa using hd
    · cases hr with
      | nil => exact .nil l
      | cons hc' ho =>
        -- The character that ended the literal was kept, and comes first.
        cases hc'
        have hkept : { l₁ with pushback := none } = l₁ := by
          obtain ⟨reader, pushback, finished⟩ := l₁
          cases (readChar_eq_ok hc).1
          rfl
        rw [hkept] at ho
        exact .cons hc ho

/-- What a token was read from: some blanks and the characters of the token. -/
theorem opens_of_next (h : l.next = .ok t l') (ht : t ≠ .eof) (hr : Opens l' rest) :
    ∃ bs g, (∀ c ∈ bs, isBlank c = true) ∧ GivenAs g (.ok t) ∧
      segments (g ++ rest) = g :: segments rest ∧ Opens l (bs ++ (g ++ rest)) := by
  fun_induction next l with
  | case1 l e l₁ hc => cases h
  | case2 l l₁ hc => cases h; exact absurd rfl ht
  | case3 l c l₁ hc hb ih =>
    obtain ⟨bs, g, hbs, hg, hseg, ho⟩ := ih h
    exact ⟨c :: bs, g, List.forall_mem_cons.2 ⟨hb, hbs⟩, hg, hseg, .cons hc ho⟩
  | case4 l c l₁ hc hb hd e l₂ hdigits => cases h
  | case5 l c l₁ hc hb hd ds l₂ hdigits e hl => cases h
  | case6 l c l₁ hc hb hd ds l₂ hdigits u hl =>
    cases h
    obtain ⟨es, rfl, hes, hrest, ho⟩ := opens_of_readDigits hdigits hr
    have hall : ∀ x ∈ c :: es, x.isDigit = true := List.forall_mem_cons.2 ⟨hd, hes⟩
    refine ⟨[], c :: es, by simp, ?_, segments_digits hall hrest, .cons hc ho⟩
    rw [← hl]
    exact givenAs_literalToken hall
  | case7 l c l₁ hc hb hd u hp =>
    cases h
    rw [Bool.not_eq_true] at hb hd
    refine ⟨[], [c], by simp, .mark (Token.ofPunctuation?_eq_some_iff.1 hp), ?_, .cons hc hr⟩
    rw [List.singleton_append, segments_single hd, hb]
    rfl
  | case8 l c l₁ hc hb hd hp => cases h

/-- The first of the tokens to come, and the lexer after it. -/
theorem next_of_drain (h : l.drain.1 = t :: ts) :
    t ≠ .eof ∧ ∃ l', l.next = .ok t l' ∧ l'.drain.1 = ts := by
  cases hn : l.next with
  | error e l' =>
    rw [drain_of_error hn] at h
    cases h
  | ok u l' =>
    by_cases hu : u = .eof
    · subst hu
      rw [drain_of_eof hn] at h
      cases h
    · rw [drain_of_token hn hu] at h
      cases h
      exact ⟨hu, l', rfl, rfl⟩

/-- **The tokens up to a stop were read from characters that are lexed to them.** -/
theorem opens_of_drain {us : List Token} (h : l.drain.1 = ts ++ .stop :: us) :
    ∃ cs, Opens l (cs ++ ['.']) ∧ LexesTo cs ts := by
  induction ts generalizing l with
  | nil =>
    obtain ⟨ht, l', hn, -⟩ := next_of_drain h
    obtain ⟨bs, g, hbs, hg, -, ho⟩ := opens_of_next hn ht (.nil l')
    obtain rfl : g = ['.'] := by
      cases hg with
      | mark hc => exact hc.symm
    refine ⟨bs, by simpa using ho, ?_⟩
    simpa using LexesTo.nil.blanks hbs
  | cons t ts ih =>
    obtain ⟨ht, l', hn, htail⟩ := next_of_drain h
    obtain ⟨cs, ho, hcs⟩ := ih htail
    obtain ⟨bs, g, hbs, hg, hseg, ho⟩ := opens_of_next hn ht ho
    refine ⟨bs ++ (g ++ cs), by simpa using ho, LexesTo.blanks hbs ?_⟩
    -- The stop at the end is a segment of its own, with or without the token in front.
    rw [← List.append_assoc, segments_stop, segments_stop, ← List.cons_append] at hseg
    rw [LexesTo, List.append_cancel_right hseg]
    exact .cons hg hcs

end Lexer

/-! ## Programs -/

theorem tokens_of_lexesTo {text : String} {ts : List Token} (h : LexesTo text.toList ts) :
    (Reader.ofString text).tokens = ts :=
  congrArg Prod.fst (Lexer.drain_of_lexesTo (Lexer.spells_ofString text) h)

theorem tokenize_of_lexesTo {text : String} {ts : List Token} (h : LexesTo text.toList ts) :
    tokenize text = .ok ts := by
  rw [tokenize, Lexer.drain_of_lexesTo (Lexer.spells_ofString text) h]

/-- The characters that a program was read from, up to its stop. -/
theorem opens_of_parse {source : Reader} {p : Program} (h : parse source = .ok p) :
    ∃ cs, Lexer.Opens { reader := source } (cs ++ ['.']) ∧ LexesTo cs p.tokens := by
  obtain ⟨⟨us, hus⟩, -⟩ := tree_of_parse h
  rw [List.append_assoc] at hus
  exact Lexer.opens_of_drain hus.symm

theorem takeWhile_ne_stop {cs : List Char} (h : '.' ∉ cs) (rest : List Char) :
    (cs ++ '.' :: rest).takeWhile (· ≠ '.') = cs := by
  rw [List.takeWhile_append_of_pos]
  · simp
  · intro c hc
    simpa using ne_of_mem_of_not_mem hc h

/-- **A text that is a program with a stop after it is lexed to the tokens of that program.** -/
theorem lexesTo_of_parse {text : String} {p : Program}
    (h : parse (.ofString (text ++ ".")) = .ok p) (hstop : '.' ∉ text.toList) :
    LexesTo text.toList p.tokens := by
  obtain ⟨cs, ho, hcs⟩ := opens_of_parse h
  obtain ⟨rest, hrest⟩ := ho.isPrefix (Lexer.spells_ofString (text ++ "."))
  rw [String.toList_append, List.append_assoc] at hrest
  -- Neither side has a stop before the one that is shown, so the two end together.
  have htake := congrArg (List.takeWhile (· ≠ '.')) hrest
  have hcs' : '.' ∉ cs := hcs.not_mem (tree_of_parse h).2.1
  have heq : cs = text.toList :=
    (takeWhile_ne_stop hcs' rest).symm.trans (htake.trans (takeWhile_ne_stop hstop []))
  exact heq ▸ hcs

end Calculator
