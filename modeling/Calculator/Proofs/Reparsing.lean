import Calculator.Proofs.Acceptance
import Calculator.Proofs.Association
import Calculator.Proofs.Spelling

/-!
# Reading back what was written

The text of any tree, read as a program again. It spells the tokens of the tree, so it is read up to
the first of them that is not to be had: a negative literal, because the lexer sees its `-` first,
or a token that leads past the limit on nesting. If there is none, what is read is the tree with
its powers associated to the right.

**Theorem (`parse_text`).** What `parse` makes of the text of a tree, for every tree.

The automaton follows the tokens of the tree with the levels known in advance, and the lexer
follows along: where the automaton has just taken a literal, no literal can come next, so what ends
the digits of a literal in the text is never a digit.
-/

namespace Calculator

open Automaton State Lexer

def Token.isNegative : Token → Bool
  | .number v => v.toInt < 0
  | _ => false

/-- What is wrong with a token that leads to a given level. -/
def Token.offence (t : Token) (level : Nat) : Option ParseError :=
  if t.isNegative then some (.unexpected .minus)
  else if maxNesting < level then some .nestingTooDeep
  else none

/-- What is wrong with the first token that anything is wrong with. -/
def Program.offence (p : Program) : Option ParseError :=
  p.levels.findSome? fun (t, level) => t.offence level

theorem Token.offence_eq_none_iff {t : Token} {level : Nat} :
    t.offence level = none ↔ t.isNegative = false ∧ level ≤ maxNesting := by
  unfold Token.offence
  split
  · next hn => simp [hn]
  · next hn =>
    rw [Bool.not_eq_true] at hn
    split <;> simp [hn] <;> omega

theorem Token.isNegative_eq_false_iff {t : Token} :
    t.isNegative = false ↔ ∀ v, t = .number v → 0 ≤ v.toInt := by
  cases t <;> simp [Token.isNegative]

theorem Program.offence_eq_none_iff {p : Program} :
    p.offence = none ↔ p.IsNonneg ∧ p.depth ≤ maxNesting := by
  rw [← p.levels_le_iff, Program.IsNonneg, ← p.map_fst_levels, Program.offence,
    List.findSome?_eq_none_iff]
  simp only [Token.offence_eq_none_iff, Token.isNegative_eq_false_iff, List.mem_map]
  constructor
  · intro h
    refine ⟨?_, fun x hx => (h x hx).2⟩
    rintro v ⟨x, hx, hv⟩
    exact (h x hx).1 v hv
  · rintro ⟨hn, hd⟩ x hx
    exact ⟨fun v hv => hn v ⟨x, hx, hv⟩, hd x hx⟩

/-! ## Traces and their text -/

section Trace

variable {s s' : State} {xs : List (Token × Nat)} {rest : List Char} {l : Lexer}

/-- The characters of a trace. -/
def spelled (xs : List (Token × Nat)) : List Char := (xs.map Prod.fst).flatMap Token.spelling

theorem spelled_cons_append (t : Token) (k : Nat) :
    spelled ((t, k) :: xs) ++ rest = t.spelling ++ (spelled xs ++ rest) := by
  simp [spelled]

/-- A literal comes where one is due, and then none is due. -/
theorem due_of_move_number {v : Value} (h : s.move (.number v) = .reading s') :
    s.due = true ∧ s'.due = false := by
  unfold move at h
  split at h
  · next hs => cases h; exact ⟨hs, rfl⟩
  · rcases operator_eq_reading h with ⟨h, -⟩ | ⟨o, h, -⟩ | ⟨o, h, -⟩ | ⟨h, -⟩ | ⟨b, k, o, -, h, -⟩
    · cases h
    · cases o <;> cases h
    · cases o <;> cases h
    · cases h
    · cases b <;> cases h

/-- Where no operand is due, the text does not go on with a digit. -/
theorem isDigit_eq_false_of_trace (h : Trace s xs s') (hs : s.due = false)
    (hr : s'.due = false → ∀ c ∈ rest.head?, c.isDigit = false) :
    ∀ c ∈ (spelled xs ++ rest).head?, c.isDigit = false := by
  cases h with
  | nil => exact hr hs
  | @cons _ _ _ t k xs hm hk ht =>
    have hne : ∀ v, t ≠ .number v := by
      rintro v rfl
      have := (due_of_move_number hm).1
      rw [hs] at this
      cases this
    rw [spelled_cons_append]
    exact isDigit_eq_false_of_head? (ne_of_move_reading hm).2 hne

/-- The first token of a trace is read back from its text. -/
theorem drain_of_trace_cons {s₁ : State} {t : Token} {k : Nat} (hm : s.move t = .reading s₁)
    (h : Trace s₁ xs s') (hl : Spells l (spelled ((t, k) :: xs) ++ rest))
    (hn : t.isNegative = false) (hr : s'.due = false → ∀ c ∈ rest.head?, c.isDigit = false) :
    ∃ l', Spells l' (spelled xs ++ rest) ∧ l.drain = (t :: l'.drain.1, l'.drain.2) := by
  rw [spelled_cons_append] at hl
  refine drain_of_spelling hl (ne_of_move_reading hm).2 ?_
  rintro v rfl
  exact ⟨Token.isNegative_eq_false_iff.1 hn v rfl,
    isDigit_eq_false_of_trace h (due_of_move_number hm).2 hr⟩

theorem drain_of_trace (h : Trace s xs s') (hl : Spells l (spelled xs ++ rest))
    (hn : ∀ x ∈ xs, x.1.isNegative = false)
    (hr : s'.due = false → ∀ c ∈ rest.head?, c.isDigit = false) :
    ∃ l', Spells l' rest ∧ l.drain = (xs.map Prod.fst ++ l'.drain.1, l'.drain.2) := by
  induction h generalizing l with
  | nil s => exact ⟨l, hl, rfl⟩
  | cons hm hk ht ih =>
    rw [List.forall_mem_cons] at hn
    obtain ⟨l₁, hl₁, hd₁⟩ := drain_of_trace_cons hm ht hl hn.1 hr
    obtain ⟨l', hl', hd'⟩ := ih hl₁ hn.2 hr
    exact ⟨l', hl', by rw [hd₁, hd', List.map_cons, List.cons_append]⟩

/-- Something can be had of any text that ends with a stop. -/
theorem exists_drain_of_trace (h : Trace s xs s') (hl : Spells l (spelled xs ++ ['.'])) :
    ∃ t ts, l.drain.1 = t :: ts := by
  cases h with
  | nil =>
    obtain ⟨l', -, hd⟩ := drain_of_mark hl rfl
    exact ⟨.stop, l'.drain.1, by rw [hd]⟩
  | @cons _ _ _ t k xs hm hk ht =>
    cases hn : t.isNegative with
    | false =>
      obtain ⟨l', -, hd⟩ := drain_of_trace_cons hm ht hl hn (by simp)
      exact ⟨t, l'.drain.1, by rw [hd]⟩
    | true =>
      cases t with
      | number v =>
        rw [spelled_cons_append] at hl
        obtain ⟨ts, hd⟩ := drain_of_negative hl (of_decide_eq_true hn)
        exact ⟨.minus, ts, hd⟩
      | _ => cases hn

end Trace

/-! ## Programs and their text -/

section Text

variable {text : String} {xs ys : List (Token × Nat)} {s₁ s' : State}

/-- The tokens of a text up to some point of a trace, if none of them is negative. -/
theorem tokens_of_trace (hx : Trace start xs s₁) (hy : Trace s₁ ys s')
    (htext : text.toList = spelled (xs ++ ys) ++ ['.'])
    (hn : ∀ x ∈ xs, x.1.isNegative = false) : ∃ l, Spells l (spelled ys ++ ['.']) ∧
      (Reader.ofString text).tokens = xs.map Prod.fst ++ l.drain.1 := by
  have hl := spells_ofString text
  rw [htext, spelled, List.map_append, List.flatMap_append, List.append_assoc] at hl
  obtain ⟨l, hl, hd⟩ := drain_of_trace hx hl hn
    fun hdue => isDigit_eq_false_of_trace hy hdue (by simp)
  exact ⟨l, hl, congrArg Prod.fst hd⟩

/-- A negative literal is refused at its `-`. -/
theorem refusal_of_negative {v : Value} {k : Nat} (hx : Trace start xs s₁)
    (hy : Trace s₁ ((.number v, k) :: ys) s')
    (htext : text.toList = spelled (xs ++ (.number v, k) :: ys) ++ ['.'])
    (hok : ∀ x ∈ xs, x.1.isNegative = false ∧ x.2 ≤ maxNesting) (hv : v.toInt < 0) :
    (Reader.ofString text).refusal = some (.parse (.unexpected .minus)) := by
  obtain ⟨l, hl, htoks⟩ := tokens_of_trace hx hy htext fun x hx => (hok x hx).1
  obtain ⟨hr, hle⟩ := hx.judge_eq (Nat.zero_le maxNesting) fun x hx => (hok x hx).2
  rw [spelled_cons_append] at hl
  obtain ⟨ts, hts⟩ := drain_of_negative hl hv
  refine refusal_of_refused (htoks.trans (by rw [hts])) hr ?_
  cases hy with
  | cons hm hk ht =>
    rw [step_of_le hle, move, if_pos (due_of_move_number hm).1]
    rfl

/-- The token that leads past the limit is still taken, and the one after it is refused. -/
theorem refusal_of_deep {t : Token} {k : Nat} (hx : Trace start xs s₁)
    (hy : Trace s₁ ((t, k) :: ys) s') (htext : text.toList = spelled (xs ++ (t, k) :: ys) ++ ['.'])
    (hok : ∀ x ∈ xs, x.1.isNegative = false ∧ x.2 ≤ maxNesting) (ht : t.isNegative = false)
    (hlt : maxNesting < k) : (Reader.ofString text).refusal = some (.parse .nestingTooDeep) := by
  obtain ⟨l, hl, htoks⟩ := tokens_of_trace hx hy htext fun x hx => (hok x hx).1
  obtain ⟨hr, hle⟩ := hx.judge_eq (Nat.zero_le maxNesting) fun x hx => (hok x hx).2
  cases hy with
  | cons hm hk hrest =>
    obtain ⟨l₁, hl₁, hd₁⟩ := drain_of_trace_cons hm hrest hl ht (by simp)
    obtain ⟨u, us, hus⟩ := exists_drain_of_trace hrest hl₁
    have htoks' : (Reader.ofString text).tokens = (xs.map Prod.fst ++ [t]) ++ u :: us := by
      rw [htoks, hd₁, hus, List.append_assoc]
      rfl
    exact refusal_of_refused htoks' (judge_snoc hr ((step_of_le hle).trans hm))
      (step_of_lt (hk ▸ hlt))

/-- The first offence is where reading fails. -/
theorem refusal_of_offence {e : ParseError} (h : Trace start xs s')
    (htext : text.toList = spelled xs ++ ['.'])
    (he : xs.findSome? (fun (t, level) => t.offence level) = some e) :
    (Reader.ofString text).refusal = some (.parse e) := by
  obtain ⟨ys, ⟨t, k⟩, zs, rfl, he, hys⟩ := List.findSome?_eq_some_iff.1 he
  have hok : ∀ y ∈ ys, y.1.isNegative = false ∧ y.2 ≤ maxNesting := fun y hy =>
    Token.offence_eq_none_iff.1 (hys y hy)
  obtain ⟨s₁, hy, hz⟩ := h.split
  change t.offence k = some e at he
  unfold Token.offence at he
  split at he
  · next hneg =>
    cases he
    cases t with
    | number v => exact refusal_of_negative hy hz htext hok (of_decide_eq_true hneg)
    | _ => cases hneg
  · next hneg =>
    split at he
    · next hlt =>
      cases he
      exact refusal_of_deep hy hz htext hok (Bool.not_eq_true _ ▸ hneg) hlt
    · cases he

end Text

/-- What a program without an offence is read as. -/
theorem parse_of_tokens {source : Reader} {p : Program} (hp : p.IsNormal)
    (hd : p.depth ≤ maxNesting) (h : p.tokens ++ [.stop] <+: source.tokens) :
    parse source = .ok p := by
  obtain ⟨d, rfl⟩ := Derivation.exists_program_iff.2 hp
  obtain ⟨ht, hdepth, -⟩ := d.agrees
  exact parse_eq_ok_iff.2 ⟨d, ht ▸ h, hdepth ▸ hd, rfl⟩

/-- **What the text of a tree is read as.** -/
theorem parse_text (p : Program) : parse (.ofString p.text) =
    match p.norm.offence with
    | none => .ok p.norm
    | some e => .error (.parse e) := by
  obtain ⟨k, hk⟩ := trace_program p.norm p.isNormal_norm
  have htext : p.text.toList = spelled p.norm.levels ++ ['.'] := by
    rw [p.toList_text, ← p.tokens_norm, ← p.norm.map_fst_levels]
    rfl
  cases ho : p.norm.offence with
  | none =>
    have hn : ∀ x ∈ p.norm.levels, x.1.isNegative = false := fun x hx =>
      (Token.offence_eq_none_iff.1 (List.findSome?_eq_none_iff.1 ho x hx)).1
    obtain ⟨l, hl, htoks⟩ := tokens_of_trace hk (.nil _) (by rw [List.append_nil, htext]) hn
    obtain ⟨l', -, hd⟩ := drain_of_mark hl rfl
    rw [Program.map_fst_levels, hd] at htoks
    refine parse_of_tokens p.isNormal_norm (Program.offence_eq_none_iff.1 ho).2 ⟨l'.drain.1, ?_⟩
    rw [htoks, List.append_assoc]
    rfl
  | some e => exact parse_eq_error_iff.2 (refusal_of_offence hk htext ho)

theorem Program.isNonneg_norm {p : Program} : p.norm.IsNonneg ↔ p.IsNonneg := by
  rw [Program.IsNonneg, p.tokens_norm, Program.IsNonneg]

theorem Program.offence_cases {p : Program} {e : ParseError} (h : p.offence = some e) :
    e = .unexpected .minus ∨ e = .nestingTooDeep := by
  obtain ⟨x, -, hx⟩ := List.exists_of_findSome?_eq_some h
  change x.1.offence x.2 = some e at hx
  unfold Token.offence at hx
  split at hx
  · cases hx; exact .inl rfl
  · split at hx
    · cases hx; exact .inr rfl
    · cases hx

/-- Which trees are read back as they are. -/
theorem parse_text_eq_ok_iff {p : Program} : parse (.ofString p.text) = .ok p ↔
    p.IsNonneg ∧ p.IsNormal ∧ p.depth ≤ maxNesting := by
  rw [parse_text]
  constructor
  · intro h
    split at h
    · next ho =>
      injection h with h
      rw [Program.offence_eq_none_iff, h] at ho
      exact ⟨ho.1, Program.norm_eq_self_iff.1 h, ho.2⟩
    · cases h
  · rintro ⟨hn, hp, hd⟩
    rw [p.norm_of_isNormal hp, Program.offence_eq_none_iff.2 ⟨hn, hd⟩]

/-- **Reading back the text of a tree, for every tree.** If no literal is negative and the tree with
its powers associated to the right is within the limit on nesting, that tree is read. Otherwise the
first token with which something is wrong decides: the `-` of a negative literal is refused, or the
nesting is. So exactly the trees without either, in which no power is the base of a power, are read
back as they are, and all trees that are read are among them. -/
theorem parse_text_of_every_tree :
    (∀ t : Program,
      (t.IsNonneg ∧ t.norm.depth ≤ maxNesting → parse (.ofString t.text) = .ok t.norm) ∧
      (¬(t.IsNonneg ∧ t.norm.depth ≤ maxNesting) → ∃ e, t.norm.offence = some e ∧
        (e = .unexpected .minus ∨ e = .nestingTooDeep) ∧
        parse (.ofString t.text) = .error (.parse e)) ∧
      (parse (.ofString t.text) = .ok t ↔ t.IsNonneg ∧ t.IsNormal ∧ t.depth ≤ maxNesting)) ∧
    ∀ source p, parse source = .ok p → parse (.ofString p.text) = .ok p := by
  refine ⟨fun t => ⟨fun h => ?_, fun h => ?_, parse_text_eq_ok_iff⟩, fun source p h => ?_⟩
  · rw [← Program.isNonneg_norm, ← Program.offence_eq_none_iff] at h
    rw [parse_text, h]
  · rw [← Program.isNonneg_norm, ← Program.offence_eq_none_iff, ← ne_eq,
      Option.ne_none_iff_exists'] at h
    obtain ⟨e, he⟩ := h
    refine ⟨e, he, Program.offence_cases he, ?_⟩
    rw [parse_text, he]
  · obtain ⟨-, -, hn, hp, hd⟩ := tree_of_parse h
    exact parse_text_eq_ok_iff.2 ⟨hn, hp, hd⟩

/-- A power of a power is read back as a tower, and a power with a negative exponent is not. -/
theorem parse_text_of_powers :
    let two : Factor := .number ⟨2, rfl⟩
    let program (f : Factor) : Program := .single (.single (.single f))
    let tower := program (.power (.power two two) two)
    let negative := program (.power two (.number ⟨-1, rfl⟩))
    parse (.ofString tower.text) = .ok tower.norm ∧
      parse (.ofString negative.text) = .error (.parse (.unexpected .minus)) := by
  intro two program tower negative
  have hnonneg : tower.IsNonneg := (Program.offence_eq_none_iff.1 (by decide)).1
  have hnegative : ¬negative.IsNonneg := fun h => absurd (h ⟨-1, rfl⟩ (by decide)) (by decide)
  refine ⟨(parse_text_of_every_tree.1 tower).1 ⟨hnonneg, by decide⟩, ?_⟩
  obtain ⟨e, he, -, hp⟩ := (parse_text_of_every_tree.1 negative).2.1 fun h => hnegative h.1
  have ho : negative.norm.offence = some (.unexpected .minus) := by decide
  cases ho.symm.trans he
  exact hp

end Calculator
