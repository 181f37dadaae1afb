import Calculator.Proofs.Decoding
import Calculator.Proofs.Recovery
import Calculator.Proofs.RunLog

/-!
# Progress

Nothing in the parser counts. Its loops go on as long as there are operators, and its rules call one
another. It ends because each of its moves takes a token, and each token takes bytes of its own from
an input that has only so many.

**Theorem (`Lexer.pieces_of_calls`).** Tokens are made from consecutive pieces of the input, with
nothing but blanks between them.

**Theorem (`Rule.Moves.goesOn`).** A loop that goes round again has gone past an item and an
operator.

**Theorem (`Grammar.factorOver_congr`).** What reads the factors nested in a factor matters only at
cursors further on: it can be exchanged for anything that does the same there.
-/

namespace Calculator

open Cursor Grammar Fed

/-! ## The bytes of tokens -/

/-- What a token was read from: some blanks, and the characters of the token. -/
structure Token.MadeFrom (t : Token) (piece : List Char × List Char) : Prop where
  blank : ∀ c ∈ piece.1, isBlank c = true
  given : GivenAs piece.2 (.ok t)
  bytes_ne_nil : piece.2.flatMap String.utf8EncodeChar ≠ []

theorem Token.MadeFrom.isPlain {t : Token} {piece : List Char × List Char} (h : t.MadeFrom piece) :
    ∀ c ∈ piece.1 ++ piece.2, IsPlain c := by
  intro c hc
  rcases List.mem_append.1 hc with hc | hc
  · exact .inl (h.blank c hc)
  · exact h.given.isPlain c hc

theorem Token.isPlain_of_pieces {ts : List Token} {pieces : List (List Char × List Char)}
    (h : List.Forall₂ Token.MadeFrom ts pieces) :
    ∀ c ∈ pieces.flatMap fun piece => piece.1 ++ piece.2, IsPlain c := by
  induction h with
  | nil => exact List.forall_mem_nil _
  | cons ht _ ih =>
    rw [List.flatMap_cons, List.forall_mem_append]
    exact ⟨ht.isPlain, ih⟩

namespace Lexer

variable {l l' : Lexer} {t : Token} {ts : List Token} {cs rest : List Char}
  {last : Except LexicalError Token}

theorem madeFrom_of_next (h : l.next = .ok t l') (ht : t ≠ .eof) (hr : Opens l' rest) :
    ∃ piece, t.MadeFrom piece ∧ Opens l (piece.1 ++ piece.2 ++ rest) := by
  obtain ⟨bs, g, hbs, hg, hseg, ho⟩ := opens_of_next h ht hr
  refine ⟨(bs, g), ⟨hbs, hg, ?_⟩, by rwa [List.append_assoc]⟩
  -- An empty token would be one segment more in the same characters.
  cases g with
  | nil =>
    have hlength := congrArg List.length hseg
    rw [List.nil_append, List.length_cons] at hlength
    omega
  | cons c g =>
    rw [List.flatMap_cons]
    exact List.append_ne_nil_of_left_ne_nil (String.utf8EncodeChar_ne_nil) _

/-- **Tokens are made from consecutive pieces of the input**, those that are asked for one after
another and given. -/
theorem pieces_of_calls (h : l.calls (List.replicate (ts.length + 1) .token) =
      (ts.map (fun t => some (.ok t)) ++ [some last], l')) (ht : .eof ∉ ts) :
    ∃ pieces, List.Forall₂ Token.MadeFrom ((ts ++ last.toOption.toList).filter (· ≠ .eof)) pieces ∧
      Opens l (pieces.flatMap fun piece => piece.1 ++ piece.2) := by
  induction ts generalizing l with
  | nil =>
    cases last with
    | error e => exact ⟨[], .nil, .nil l⟩
    | ok t =>
      by_cases he : t = .eof
      · subst he
        exact ⟨[], .nil, .nil l⟩
      · obtain ⟨l₁, hn, -⟩ := calls_cons h
        obtain ⟨piece, hpiece, ho⟩ := madeFrom_of_next hn he (.nil l₁)
        refine ⟨[piece], ?_, ho⟩
        show List.Forall₂ Token.MadeFrom ([t].filter (· ≠ .eof)) [piece]
        rw [List.filter_cons_of_pos (by simpa using he)]
        exact .cons hpiece .nil
  | cons t ts ih =>
    rw [List.mem_cons, not_or] at ht
    obtain ⟨l₁, hn, hcalls⟩ := calls_cons h
    obtain ⟨pieces, hmade, ho⟩ := ih hcalls ht.2
    obtain ⟨piece, hpiece, ho⟩ := madeFrom_of_next hn (Ne.symm ht.1) ho
    refine ⟨piece :: pieces, ?_, ho⟩
    rw [List.cons_append, List.filter_cons_of_pos (by simpa using Ne.symm ht.1)]
    exact .cons hpiece hmade

theorem Opens.exists_reads (h : Opens l cs) (hp : l.pushback = none) :
    ∃ l', Reads l cs l' ∧ l'.pushback = none := by
  induction h with
  | nil l => exact ⟨l, .refl l, hp⟩
  | cons hc _ ih =>
    obtain ⟨l', hr, hp'⟩ := ih (readChar_eq_ok hc).1
    exact ⟨l', .step hc hr, hp'⟩

/-- The characters that an input begins with come from its first bytes. -/
theorem Opens.events_eq {source : Reader} (h : Opens { reader := source } cs)
    (hcs : Utf8.replacement ∉ cs) :
    ∃ rest, source.events = (cs.flatMap String.utf8EncodeChar).map .byte ++ rest := by
  obtain ⟨l', hr, hp⟩ := h.exists_reads rfl
  obtain ⟨taken, rfl, hg⟩ := hr.gives hcs hp
  have hfinished : (feed l').finished = false := by
    rw [hg.finished_eq]
    simp [feed]
  exact ⟨_, hg.events_eq hfinished⟩

end Lexer

namespace Reader.Requests

variable {source : Reader} {passed : List Token} {last : Except LexicalError Token}

/-- Each token that the parser goes past takes at least one byte. -/
theorem length_le (h : source.Requests passed last) : passed.length ≤ source.size := by
  have hcalls := h.calls
  rw [List.replicate_succ', Lexer.calls_concat, Prod.mk.injEq] at hcalls
  have hpassed := (List.append_inj' hcalls.1 rfl).1
  have hsize := Lexer.size_of_calls (Prod.ext hpassed rfl) h.eof_not_mem
  have hnew : Lexer.size { reader := source } = source.size := rfl
  omega

/-- The bytes of the tokens that the parser was given, one after another. -/
theorem pieces (h : source.Requests passed last) : ∃ pieces rest,
    List.Forall₂ Token.MadeFrom ((passed ++ last.toOption.toList).filter (· ≠ .eof)) pieces ∧
      source.events = (pieces.flatMap fun piece =>
        (piece.1 ++ piece.2).flatMap String.utf8EncodeChar).map .byte ++ rest := by
  obtain ⟨pieces, hmade, ho⟩ := Lexer.pieces_of_calls h.calls h.eof_not_mem
  obtain ⟨rest, hrest⟩ := ho.events_eq (replacement_not_mem (Token.isPlain_of_pieces hmade))
  rw [List.flatMap_assoc] at hrest
  exact ⟨pieces, rest, hmade, hrest⟩

end Reader.Requests

/-! ## Going on -/

namespace Cursor

/-- Where a parser can get from a cursor by going past tokens. -/
def Onward (c c' : Cursor) : Prop := ∃ ts, .eof ∉ ts ∧ Passes c ts c'

/-- Where a parser can get by going past at least one token. -/
def Beyond (c c' : Cursor) : Prop := ∃ ts, ts ≠ [] ∧ .eof ∉ ts ∧ Passes c ts c'

variable {c c₁ c₂ : Cursor}

theorem Onward.refl (c : Cursor) : Onward c c := ⟨[], List.not_mem_nil, .refl c⟩

theorem Onward.trans (h : Onward c c₁) (h' : Onward c₁ c₂) : Onward c c₂ := by
  obtain ⟨ts, hts, hp⟩ := h
  obtain ⟨us, hus, hp'⟩ := h'
  exact ⟨ts ++ us, by simp [hts, hus], hp.trans hp'⟩

theorem Onward.beyond (h : Onward c c₁) (h' : Beyond c₁ c₂) : Beyond c c₂ := by
  obtain ⟨ts, hts, hp⟩ := h
  obtain ⟨us, hne, hus, hp'⟩ := h'
  exact ⟨ts ++ us, by simp [hne], by simp [hts, hus], hp.trans hp'⟩

theorem beyond_of_pass {u : Unit} (hc : c.current ≠ .eof) (ha : pass c = .ok u c₁)
    (h : Onward c₁ c₂) : Beyond c c₂ := by
  obtain ⟨ts, hts, hp⟩ := h
  exact ⟨c.current :: ts, by simp, by simp [hts, Ne.symm hc], .step ha hp⟩

end Cursor

/-! ## Loops -/

namespace Rule

variable {ο α : Type} {item : Rule α} {op? : Token → Option ο} {move : Move}

/-- One round of the loop that reads a chain: an item and the operator after it, if there is one. -/
def round (item : Rule α) (op? : Token → Option ο) (move : Move) : Parse (α × Option ο) := do
  let a ← item.run
  match op? (← get).current with
  | none => return (a, none)
  | some o =>
    move.run
    return (a, some o)

/-- The loop goes round until there is no operator. -/
theorem readChain_eq_round (item : Rule α) (op? : Token → Option ο) (move : Move)
    (before : List (α × ο)) : item.readChain op? move before = (do
      match ← item.round op? move with
      | (a, none) => return .endingIn a before
      | (a, some o) => item.readChain op? move ((a, o) :: before)) := by
  rw [readChain_eq, round, bind_assoc]
  congr 1
  funext a
  rw [bind_assoc]
  congr 1
  funext c
  cases op? c.current with
  | none => rfl
  | some o => simp

/-- What a rule accepts it goes past, token by token. -/
def Moves (r : Rule α) : Prop :=
  ∀ ⦃c c' : Cursor⦄ ⦃a : α⦄, r.run c = .ok a c' → c.Onward c'

/-- A loop repeats its rounds, and each one that another follows has gone past an item and an
operator. -/
structure GoesOn (item : Rule α) (op? : Token → Option ο) (move : Move) : Prop where
  loop : ∀ before, item.readChain op? move before = do
    match ← item.round op? move with
    | (a, none) => return .endingIn a before
    | (a, some o) => item.readChain op? move ((a, o) :: before)
  beyond : ∀ {c c' : Cursor} {a : α} {o : ο}, item.round op? move c = .ok (a, some o) c' →
    ∃ ts t, ts ≠ [] ∧ op? t = some o ∧ .eof ∉ ts ++ [t] ∧ Passes c (ts ++ [t]) c'

theorem round_eq_some {c c' : Cursor} {a : α} {o : ο}
    (h : item.round op? move c = .ok (a, some o) c') :
    ∃ c₁, item.run c = .ok a c₁ ∧ op? c₁.current = some o ∧ move.run c₁ = .ok () c' := by
  obtain ⟨a', c₁, hitem, h⟩ := Parse.bind_eq_ok.1 h
  rw [Parse.get_bind] at h
  cases ho : op? c₁.current with
  | none =>
    rw [ho] at h
    obtain ⟨hpair, -⟩ := Parse.pure_eq_ok.1 h
    cases hpair
  | some o' =>
    rw [ho] at h
    obtain ⟨_, c₂, hmove, h⟩ := Parse.bind_eq_ok.1 h
    obtain ⟨hpair, rfl⟩ := Parse.pure_eq_ok.1 h
    cases hpair
    exact ⟨c₁, hitem, ho, hmove⟩

/-- Going past an item and the operator after it. -/
theorem Moves.past_operator (hm : item.Moves) (hmove : move.Fits op?) (heof : op? .eof = none)
    {c c₁ c₂ : Cursor} {a : α} {o : ο} (hitem : item.run c = .ok a c₁)
    (ho : op? c₁.current = some o) (ha : move.run c₁ = .ok () c₂) :
    ∃ ts, ts ≠ [] ∧ .eof ∉ ts ++ [c₁.current] ∧ Passes c (ts ++ [c₁.current]) c₂ := by
  obtain ⟨ts, hts, hp⟩ := hm hitem
  refine ⟨ts, ?_, ?_, hp.trans (.single rfl ((hmove.pass_eq ho).trans ha))⟩
  · rintro rfl
    cases hp
    exact absurd (item.progress hitem) (Nat.lt_irrefl _)
  · rw [List.mem_append, List.mem_singleton]
    rintro (hm | hm)
    · exact hts hm
    · rw [← hm, heof] at ho
      cases ho

/-- **A loop that goes round again has gone past an item and an operator.** -/
theorem Moves.goesOn (hm : item.Moves) (hmove : move.Fits op?) (heof : op? .eof = none) :
    item.GoesOn op? move where
  loop := item.readChain_eq_round op? move
  beyond h := by
    obtain ⟨c₁, hitem, ho, ha⟩ := round_eq_some h
    obtain ⟨ts, hne, hts, hp⟩ := hm.past_operator hmove heof hitem ho ha
    exact ⟨ts, c₁.current, hne, ho, hts, hp⟩

theorem Moves.of_readChain (hm : item.Moves) (hmove : move.Fits op?) (heof : op? .eof = none)
    {before : List (α × ο)} {c c' : Cursor} {chain : Chain ο α}
    (h : item.readChain op? move before c = .ok chain c') : c.Onward c' := by
  fun_induction readChain item op? move before c with
  | case1 before c e c₁ hi => cases h
  | case2 before c a c₁ hi ho =>
    cases h
    exact hm hi
  | case3 before c a c₁ hi o ho e c₂ ha => cases h
  | case4 before c a c₁ hi o ho u c₂ ha ih =>
    obtain ⟨ts, -, hts, hp⟩ := hm.past_operator hmove heof hi ho ha
    exact .trans ⟨_, hts, hp⟩ (ih h)

theorem Moves.chain (hm : item.Moves) (hmove : move.Fits op?) (heof : op? .eof = none) :
    (item.chain op? move).Moves :=
  fun _ _ _ h => hm.of_readChain hmove heof h

end Rule

/-! ## Descents -/

theorem Parse.bind_congr {α β : Type} {x x' : Parse α} {f f' : α → Parse β} {c : Cursor}
    (hx : x c = x' c) (hf : ∀ a c', x' c = .ok a c' → f a c' = f' a c') :
    (x >>= f) c = (x' >>= f') c := by
  show EStateM.bind x f c = EStateM.bind x' f' c
  rw [EStateM.bind, EStateM.bind, hx]
  cases h : x' c with
  | ok a c' => exact hf a c' h
  | error e c' => rfl

/-- A loop depends on the rule for its items only where that is run. -/
theorem Rule.readChain_congr {ο α : Type} {item item' : Rule α} {op? : Token → Option ο}
    {move : Move} (hm : item.Moves) (hmove : move.Fits op?) (heof : op? .eof = none) {c : Cursor}
    (h : ∀ c', c.Onward c' → item'.run c' = item.run c') (before : List (α × ο)) :
    item'.readChain op? move before c = item.readChain op? move before c := by
  induction hn : c.size using Nat.strongRecOn generalizing before c with
  | ind n ih =>
    rw [item'.readChain_eq, item.readChain_eq]
    refine Parse.bind_congr (h c (.refl c)) fun a c₁ hi => ?_
    rw [Parse.get_bind, Parse.get_bind]
    cases ho : op? c₁.current with
    | none => rfl
    | some o =>
      refine Parse.bind_congr rfl fun _ c₂ ha => ?_
      obtain ⟨ts, -, hts, hp⟩ := hm.past_operator hmove heof hi ho ha
      refine ih c₂.size ?_ (fun c' hc' => h c' (.trans ⟨_, hts, hp⟩ hc')) _ rfl
      have := item.progress hi
      have := Move.size_of_run ha
      omega

namespace Grammar

variable {limit k : Nat} {inner inner' : Rule Factor} {c : Cursor}

theorem Conforms.moves (h : Conforms limit k inner) : inner.Moves := by
  intro c c' f hf
  obtain ⟨ts, ⟨d, -, rfl, -⟩, hp, -⟩ := h.derives hf
  exact ⟨d.yield, d.not_mem_yield.1, hp⟩

theorem expr_congr (hm : inner.Moves) (h : ∀ c', c.Onward c' → inner'.run c' = inner.run c') :
    (expr inner').run c = (expr inner).run c := by
  refine Rule.readChain_congr (hm.chain fits_mulOp rfl) fits_addOp rfl (fun c₁ h₁ => ?_) []
  exact Rule.readChain_congr hm fits_mulOp rfl (fun c₂ h₂ => h c₂ (h₁.trans h₂)) []

theorem enclosed_congr (b : Automaton.Bracket) (hm : inner.Moves)
    (h : ∀ c', c.Beyond c' → inner'.run c' = inner.run c') :
    enclosed inner' b.opener b.closer c = enclosed inner b.opener b.closer c := by
  refine Parse.bind_congr rfl fun _ c₁ ho => Parse.bind_congr ?_ fun _ _ _ => rfl
  obtain ⟨hc, ha⟩ := (expect_eq_ok b.past_opener).1 ho
  have hne : c.current ≠ .eof := by
    rw [hc]
    cases b <;> simp [Automaton.Bracket.opener]
  exact expr_congr hm fun c' h' => h c' (beyond_of_pass hne ha h')

theorem operand_congr (hm : inner.Moves) (h : ∀ c', c.Beyond c' → inner'.run c' = inner.run c') :
    operand inner' c = operand inner c := by
  rw [operand, operand, Parse.get_bind, Parse.get_bind]
  cases hc : c.current with
  | leftParen => exact Parse.bind_congr (enclosed_congr .paren hm h) fun _ _ _ => rfl
  | bar => exact Parse.bind_congr (enclosed_congr .bars hm h) fun _ _ _ => rfl
  | _ => rfl

theorem powerOf_congr {base : Factor} (h : ∀ c', c.Beyond c' → inner'.run c' = inner.run c') :
    powerOf base inner' c = powerOf base inner c := by
  rw [powerOf, powerOf, Parse.get_bind, Parse.get_bind]
  by_cases hc : c.current = .caret
  · rw [if_pos hc, if_pos hc]
    refine Parse.bind_congr rfl fun _ c₁ hx => Parse.bind_congr (h c₁ ?_) fun _ _ _ => rfl
    have ha := (pass_eq_expect rfl hc).trans hx
    exact beyond_of_pass (by simp [hc]) ha (.refl c₁)
  · rw [if_neg hc, if_neg hc]

/-- The rule for the factors that are nested in those of another rule. -/
def nested : Nat → Rule Factor
  | 0 => .tooDeep
  | depth + 1 => factor depth

theorem factor_eq_nested (n : Nat) : factor n = factorOver (nested n) := by
  cases n <;> rfl

theorem conforms_nested_one (n : Nat) : Conforms n 1 (nested n) := by
  cases n with
  | zero => exact conforms_tooDeep Nat.zero_lt_one
  | succ n => exact conforms_factor n (Nat.add_comm 1 n)

/-- **What reads the factors nested in a factor matters only further on.** -/
theorem factorOver_congr (n : Nat)
    (h : ∀ c', c.Beyond c' → inner'.run c' = (nested n).run c') :
    (factorOver inner').run c = (factor n).run c := by
  have hi := conforms_nested_one n
  rw [factor_eq_nested]
  refine Parse.bind_congr (operand_congr hi.moves h) fun base c₁ ho => ?_
  obtain ⟨-, ts, hp, hx⟩ := operand_derives hi ho
  obtain ⟨d, -, rfl, -⟩ := derives_operand (Nat.zero_le n) hx
  have honward : c.Onward c₁ := ⟨d.yield, d.not_mem_yield.1, hp⟩
  exact powerOf_congr fun c' h' => h c' (honward.beyond h')

end Grammar

/-! ## Parsing -/

/-- Of the answers to the parser, the log tells all tokens. -/
theorem lexed?_log {source : Reader} {passed : List Token} {last : Except LexicalError Token}
    (h : source.Requests passed last) :
    (run source).log.filterMap Record.lexed? = passed ++ last.toOption.toList := by
  obtain ⟨passed', last', h', hlog⟩ := log_of_requests source
  obtain ⟨rfl, rfl⟩ := h.unique h'
  have hlast : (Record.ofLast last).filterMap Record.lexed? = last.toOption.toList := by
    cases last <;> rfl
  have hprogram (result : Except Error Program) :
      (Record.ofProgram result ++ Record.ofValues result).filterMap Record.lexed? = [] := by
    cases result with
    | error e => rfl
    | ok p =>
      cases heval : p.eval <;> simp [heval, Record.ofProgram, Record.ofValues, Record.lexed?]
  rw [hlog, List.append_assoc, List.filterMap_append, List.filterMap_append, hprogram,
    Record.lexed?_ofPassed, hlast, List.append_nil]

/-- **Parsing ends, with one request for each token.** Whatever a script delivers, and whatever
fails or is interrupted in it, there is one row of answers that the parser is given before it ends,
at most one more than the script has bytes. The tokens among them, all but the end of the input, are
made from pieces of the input that follow one another, each of at least one byte.

A loop over factors, terms or expressions repeats its rounds, and each one that another follows has
gone past an item and an operator. A factor depends on what reads the factors nested in it, in
parentheses, between bars or after a caret, only at cursors that are at least one token further on:
that rule can be exchanged for any other which does the same there. -/
theorem parsing_makes_progress :
    (∀ script : List Read, ∃ passed last, Reader.Requests ⟨[], script⟩ passed last ∧
      (∀ passed' last', Reader.Requests ⟨[], script⟩ passed' last' →
        passed' = passed ∧ last' = last) ∧
      passed.length + 1 ≤ Read.total script + 1 ∧
      (run ⟨[], script⟩).log.filterMap Record.lexed? = passed ++ last.toOption.toList ∧
      ∃ pieces rest,
        List.Forall₂ Token.MadeFrom ((passed ++ last.toOption.toList).filter (· ≠ .eof)) pieces ∧
        Reader.events ⟨[], script⟩ = (pieces.flatMap fun piece =>
          (piece.1 ++ piece.2).flatMap String.utf8EncodeChar).map .byte ++ rest) ∧
    (∀ n, (nested n).GoesOn Token.mulOp? .advance ∧
      ((nested n).chain Token.mulOp? .advance).GoesOn Token.addOp? .advance) ∧
    (expr (factor maxNesting)).GoesOn semicolon? (.expect .semicolon) ∧
    ∀ n c inner, (∀ c', c.Beyond c' → inner.run c' = (nested n).run c') →
      (factorOver inner).run c = (factor n).run c := by
  have hmoves (n : Nat) : (nested n).Moves := (conforms_nested_one n).moves
  refine ⟨fun script => ?_, fun n => ⟨?_, ?_⟩, ?_, fun n c inner h => factorOver_congr n h⟩
  · obtain ⟨passed, last, h, -⟩ := log_of_requests ⟨[], script⟩
    refine ⟨passed, last, h, fun passed' last' h' => h'.unique h, ?_, lexed?_log h, h.pieces⟩
    have hsize : Reader.size ⟨[], script⟩ = Read.total script := Nat.zero_add _
    exact Nat.succ_le_succ (hsize ▸ h.length_le)
  · exact (hmoves n).goesOn fits_mulOp rfl
  · exact ((hmoves n).chain fits_mulOp rfl).goesOn fits_addOp rfl
  · have hterm := (hmoves (maxNesting + 1)).chain fits_mulOp rfl
    exact (hterm.chain fits_addOp rfl).goesOn fits_semicolon rfl

/-- `1 *2^` in two reads, broken off by a failure after the caret. A round of the term `1*2` goes
past `1` and `*`. Where nothing can be had after a parenthesis, what would be read there makes no
difference. -/
theorem parsing_makes_progress_broken_off :
    let script : List Read :=
      [.bytes [0x31, 0x20, 0x2a], .interrupted, .bytes [0x32, 0x5e], .failure "gone"]
    let one : Cursor := ⟨.number ⟨1, rfl⟩, { reader := .ofString "*2" }, []⟩
    let two : Cursor := ⟨.number ⟨2, rfl⟩, ⟨⟨[], []⟩, none, true⟩,
      [.lexed (.number ⟨2, rfl⟩), .lexed .times]⟩
    let paren : Cursor := ⟨.leftParen, { reader := ⟨[], [.failure "gone"]⟩ }, []⟩
    (Read.total script = 5 ∧ ∃ passed last, Reader.Requests ⟨[], script⟩ passed last ∧
      passed.length + 1 ≤ 6 ∧ passed ++ last.toOption.toList =
        [.number ⟨1, rfl⟩, .times, .number ⟨2, rfl⟩, .caret]) ∧
    ((nested 1).round Token.mulOp? .advance one = .ok (.number ⟨1, rfl⟩, some .mul) two ∧
      ∃ ts t, ts ≠ [] ∧ Token.mulOp? t = some .mul ∧ Passes one (ts ++ [t]) two) ∧
    (∀ c', ¬paren.Beyond c') ∧ (factorOver .tooDeep).run paren = (factor 3).run paren := by
  intro script one two paren
  obtain ⟨hrequests, hloops, -, hdescents⟩ := parsing_makes_progress
  obtain ⟨passed, last, h, -, hle, hlog, -⟩ := hrequests script
  have htokens : (run ⟨[], script⟩).log.filterMap Record.lexed? =
      [.number ⟨1, rfl⟩, .times, .number ⟨2, rfl⟩, .caret] := by decide +kernel
  have hround : (nested 1).round Token.mulOp? .advance one =
      .ok (.number ⟨1, rfl⟩, some .mul) two := by
    with_unfolding_all rfl
  obtain ⟨ts, t, hne, ht, -, hp⟩ := (hloops 1).1.beyond hround
  have hfails : pass paren = .error (.lexical (.readFailure "gone"))
      ⟨.leftParen, { reader := ⟨[], []⟩ }, [.matched .leftParen]⟩ := by
    with_unfolding_all rfl
  have hbeyond (c' : Cursor) : ¬paren.Beyond c' := by
    rintro ⟨ts, hne, -, hp⟩
    cases hp with
    | refl => exact hne rfl
    | step ha => cases hfails.symm.trans ha
  refine ⟨⟨rfl, passed, last, h, hle, hlog.symm.trans htokens⟩, ⟨hround, ts, t, hne, ht, hp⟩,
    hbeyond, ?_⟩
  exact hdescents 3 paren .tooDeep fun c' hc' => absurd hc' (hbeyond c')

end Calculator
