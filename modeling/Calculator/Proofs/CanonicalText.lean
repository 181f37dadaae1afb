import Calculator.Proofs.Lexemes
import Calculator.Proofs.Reparsing

/-!
# The text of a program that was read

A program that is read and written again keeps its tokens. So its new text differs from the old one
in layout only: blanks may be set in other places, and the zeros that a literal begins with are
gone.

**Theorem (`LexesTo.content_eq`).** Texts that are lexed to the same tokens have the same content:
their segments are the same, up to the zeros at the beginning of literals.

**Theorem (`text_keeps_tokens`).** The text of a program that was read has the tokens of its source
up to the stop, and the content of the characters they were read from.
-/

namespace Calculator

/-! ## Content -/

/-- The segments of a text without the zeros that literals begin with. -/
def content (cs : List Char) : List (List Char) := (segments cs).map (List.dropWhile (· = '0'))

/-- The place value of a digit. -/
theorem sub_zero_of_isDigit {c : Char} (h : c.isDigit = true) :
    c.toNat - 48 < 10 ∧ Nat.digitChar (c.toNat - 48) = c := by
  have hc : 48 ≤ c.toNat ∧ c.toNat ≤ 57 := Char.isDigit_iff_toNat.1 h
  have hlt : c.toNat - 48 < 10 := by omega
  refine ⟨hlt, Char.toNat_inj.1 ?_⟩
  rw [Nat.toNat_digitChar_of_lt_ten hlt]
  omega

theorem decimal_zero_cons (ds : List Char) : decimal ('0' :: ds) = decimal ds := by
  rw [decimal, List.reverse_cons, List.map_append]
  exact Nat.ofDigits_append_zero _

/-- The decimal places of a literal are its digits without the zeros at the beginning. -/
theorem digits_decimal {ds : List Char} (hd : ∀ c ∈ ds, c.isDigit = true) :
    Nat.digits 10 (decimal ds) = (ds.dropWhile (· = '0')).reverse.map fun c => c.toNat - 48 := by
  induction ds with
  | nil => rfl
  | cons c ds ih =>
    by_cases hc : c = '0'
    · subst hc
      rw [decimal_zero_cons, ih (List.forall_mem_cons.1 hd).2]
      rfl
    · rw [List.dropWhile_cons_of_neg (by simpa using hc)]
      refine Nat.digits_ofDigits 10 (by decide) _ ?_ ?_
      · intro n hn
        obtain ⟨x, hx, rfl⟩ := List.mem_map.1 hn
        exact (sub_zero_of_isDigit (hd x (List.mem_reverse.1 hx))).1
      · -- The first digit is the last of the decimal places, and it is not zero.
        have hfirst := (sub_zero_of_isDigit (hd c List.mem_cons_self)).2
        intro hne hzero
        have hzero' : c.toNat - 48 = 0 := by simpa using hzero
        rw [hzero'] at hfirst
        exact hc hfirst.symm

/-- The number that a literal stands for determines its digits up to the zeros at the beginning. -/
theorem dropWhile_zeros_eq {ds : List Char} (hd : ∀ c ∈ ds, c.isDigit = true) :
    ds.dropWhile (· = '0') = ((Nat.digits 10 (decimal ds)).map Nat.digitChar).reverse := by
  rw [digits_decimal hd, List.map_map, List.map_reverse, List.reverse_reverse]
  have hid : ∀ c ∈ ds.dropWhile (· = '0'), Nat.digitChar (c.toNat - 48) = id c := fun c hc =>
    (sub_zero_of_isDigit (hd c ((List.dropWhile_sublist _).subset hc))).2
  exact (List.map_id _).symm.trans (List.map_congr_left hid).symm

theorem GivenAs.dropWhile_zeros_eq {g g' : List Char} {t : Token} (h : GivenAs g (.ok t))
    (h' : GivenAs g' (.ok t)) : g.dropWhile (· = '0') = g'.dropWhile (· = '0') := by
  cases h with
  | literal hd hv =>
    cases h' with
    | literal hd' hv' =>
      have hdecimal : decimal g = decimal g' := by omega
      rw [Calculator.dropWhile_zeros_eq hd, Calculator.dropWhile_zeros_eq hd', hdecimal]
    | mark hc => simp [Token.name] at hc
  | mark hc =>
    cases h' with
    | literal => simp [Token.name] at hc
    | mark hc' => rw [← hc, ← hc']

/-- **The tokens of a text determine its content.** -/
theorem LexesTo.content_eq {cs cs' : List Char} {ts : List Token} (h : LexesTo cs ts)
    (h' : LexesTo cs' ts) : content cs = content cs' := by
  unfold LexesTo at h h'
  unfold content
  generalize segments cs = gs at h
  generalize segments cs' = gs' at h'
  induction ts generalizing gs gs' with
  | nil =>
    cases h
    cases h'
    rfl
  | cons t ts ih =>
    cases h with
    | cons hg hgs =>
      cases h' with
      | cons hg' hgs' =>
        rw [List.map_cons, List.map_cons, hg.dropWhile_zeros_eq hg', ih _ hgs _ hgs']

/-! ## Texts of programs -/

/-- Only a stop is written with a stop. -/
theorem Token.not_mem_spelling {t : Token} (h : t ≠ .stop) : '.' ∉ t.spelling := by
  cases t with
  | stop => exact absurd rfl h
  | number v => exact Value.not_mem_text rfl (by decide) v
  | _ => decide

/-- The text of a program that can be read is lexed to the tokens of the program. -/
theorem lexesTo_text {p : Program} (hp : p.IsNonneg ∧ p.IsNormal ∧ p.depth ≤ maxNesting)
    (hs : .stop ∉ p.tokens) : LexesTo p.text.toList (p.tokens ++ [.stop]) := by
  have hparse := parse_text_eq_ok_iff.2 hp
  have htext : p.text = String.ofList (p.tokens.flatMap Token.spelling) ++ "." := by
    refine String.ext ?_
    rw [p.toList_text, String.toList_append, String.toList_ofList]
    rfl
  rw [htext] at hparse
  have hbody := lexesTo_of_parse hparse fun hc => by
    rw [String.toList_ofList] at hc
    obtain ⟨t, ht, hc⟩ := List.mem_flatMap.1 hc
    exact Token.not_mem_spelling (ne_of_mem_of_not_mem ht hs) hc
  rw [htext, String.toList_append]
  exact hbody.append_mark rfl .nil

/-- **Writing a program that was read keeps its tokens.** The text of the tree has exactly the
tokens of the source up to its first stop, that one included. So it differs from the characters that
the source has up to there in blanks and in the zeros that literals begin with, and in nothing
else. -/
theorem text_keeps_tokens {source : Reader} {p : Program} (h : parse source = .ok p) :
    ∃ ts us, source.tokens = ts ++ .stop :: us ∧ .stop ∉ ts ∧
      tokenize p.text = .ok (ts ++ [.stop]) ∧
      ∃ cs, Lexer.Opens { reader := source } (cs ++ ['.']) ∧ '.' ∉ cs ∧
        content p.text.toList = content (cs ++ ['.']) := by
  obtain ⟨⟨us, hus⟩, hs, hp⟩ := tree_of_parse h
  obtain ⟨cs, ho, hcs⟩ := opens_of_parse h
  have htext := lexesTo_text hp hs
  refine ⟨p.tokens, us, ?_, hs, tokenize_of_lexesTo htext, cs, ho, hcs.not_mem hs, ?_⟩
  · rw [← hus, List.append_assoc]
    rfl
  · exact htext.content_eq (hcs.append_mark rfl .nil)

/-- Zeros at the beginning of a literal, blanks in odd places, an interruption within the program, and
no text at all after its stop. -/
theorem text_keeps_tokens_zeros :
    let source : Reader := ⟨[], [.bytes "007+ ( 2".toUTF8.toList, .interrupted,
      .bytes (" )\n.".toUTF8.toList ++ [255]), .failure "gone"]⟩
    let p : Program := .single (.cons (.single (.number ⟨7, rfl⟩)) .add
      (.single (.single (.group (.single (.single (.number ⟨2, rfl⟩)))))))
    parse source = .ok p ∧ p.text = "7 + (2)." ∧
      ∃ ts us, source.tokens = ts ++ .stop :: us ∧ .stop ∉ ts ∧
        tokenize "7 + (2)." = .ok (ts ++ [.stop]) ∧
        ∃ cs, Lexer.Opens { reader := source } (cs ++ ['.']) ∧ '.' ∉ cs ∧
          content "7 + (2).".toList = content (cs ++ ['.']) := by
  intro source p
  have h : parse source = .ok p := by decide +kernel
  have htext : p.text = "7 + (2)." := by decide +kernel
  have hkeeps := text_keeps_tokens h
  rw [htext] at hkeeps
  exact ⟨h, htext, hkeeps⟩

end Calculator
