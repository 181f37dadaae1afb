import Calculator.Parser.Grammar
import Calculator.Proofs.Characters
import Calculator.Proofs.Feed

/-!
# Locality

A lexer takes some events from its feed, and so does a parser through its lexer. What either does
depends on these events and on nothing else of the input: a step that takes certain events gives the
same result on every feed that gives them first, and leaves there what comes after them.

**Theorem (`Lexer.local_next`).** Taking a token is local.

**Theorem (`Grammar.local_wholeProgram`).** Reading a program is local.

Locality is kept when steps follow one another, and that is all that is used of the functions here:
each is a step followed by others, down to the single event.
-/

namespace Calculator

/-- A state that takes its input from a feed: a lexer, or the cursor of a parser. -/
class Fed (σ : Type) where
  feed : σ → Feed
  /-- The same state with another feed. -/
  on : σ → Feed → σ
  feed_on : ∀ s f, feed (on s f) = f
  on_feed : ∀ s, on s (feed s) = s
  on_on : ∀ s f g, on (on s f) g = on s g

open Fed

instance : Fed Lexer where
  feed l := ⟨l.reader, l.finished⟩
  on l f := { l with reader := f.reader, finished := f.finished }
  feed_on _ _ := rfl
  on_feed _ := rfl
  on_on _ _ _ := rfl

instance : Fed Cursor where
  feed c := feed c.lexer
  on c f := { c with lexer := on c.lexer f }
  feed_on _ _ := rfl
  on_feed _ := rfl
  on_on _ _ _ := rfl

/-! ## Local steps -/

section Local

variable {σ ε α β : Type}

/-- The state that a step ends in. -/
def stateOf : EStateM.Result ε σ α → σ
  | .ok _ s => s
  | .error _ s => s

variable [Fed σ] {s : σ}

/-- The same result with another feed left. -/
def onFeed (f : Feed) : EStateM.Result ε σ α → EStateM.Result ε σ α
  | .ok a s => .ok a (on s f)
  | .error e s => .error e (on s f)

/-- From this state the step takes some events, and does the same on every feed that gives them. -/
def Local (x : σ → EStateM.Result ε σ α) (s : σ) : Prop :=
  ∃ es, (feed s).Gives es (feed (stateOf (x s))) ∧
    ∀ g g', g.finished = (feed s).finished → g.Gives es g' → x (on s g) = onFeed g' (x s)

/-- A step that takes nothing. -/
theorem Local.of_still {x : σ → EStateM.Result ε σ α} (h : feed (stateOf (x s)) = feed s)
    (hon : ∀ g, g.finished = (feed s).finished → x (on s g) = onFeed g (x s)) : Local x s := by
  refine ⟨[], Feed.gives_nil_iff.2 h.symm, fun g g' hf hg => ?_⟩
  cases hg
  exact hon g hf

/-- A step that takes an event and goes on as another one. -/
theorem Local.of_event {x y : σ → EStateM.Result ε σ α} {e : Event} {r : Reader}
    (hf : (feed s).finished = false) (he : (feed s).reader.event = (e, r))
    (hx : ∀ q q', q.event = (e, q') → x (on s ⟨q, false⟩) = y (on s ⟨q', e = .ended⟩))
    (hy : Local y (on s ⟨r, e = .ended⟩)) : Local x s := by
  obtain ⟨es, hg, hon⟩ := hy
  have hs : x s = y (on s ⟨r, e = .ended⟩) := by
    rw [← hx _ r he]
    congr 1
    exact (on_feed s).symm.trans (congrArg (on s) (congrArg (Feed.mk _) hf))
  rw [feed_on] at hg hon
  refine ⟨e :: es, ?_, fun g g' hgf hgg => ?_⟩
  · rw [hs, Feed.gives_cons_iff, he]
    exact ⟨hf, rfl, hg⟩
  · obtain ⟨hgf, hge, hgg⟩ := Feed.gives_cons_iff.1 hgg
    have hgx := hx g.reader g.reader.event.2 (Prod.ext hge rfl)
    rw [← hgf] at hgx
    rw [hs, ← hon ⟨g.reader.event.2, e = .ended⟩ g' rfl hgg, on_on]
    exact hgx

/-- A step that does what another one does, and then something else. -/
theorem Local.andThen {x : σ → EStateM.Result ε σ α} {y z : σ → EStateM.Result ε σ β}
    (hx : Local x s) (hz : Local z (stateOf (x s)))
    (hy : ∀ g g', x (on s g) = onFeed g' (x s) → y (on s g) = z (on (stateOf (x s)) g')) :
    Local y s := by
  obtain ⟨es, hg, hon⟩ := hx
  obtain ⟨es', hg', hon'⟩ := hz
  have hs : y s = z (stateOf (x s)) := by
    have h := hy (feed s) _ (hon _ _ rfl hg)
    rwa [on_feed, on_feed] at h
  refine ⟨es ++ es', hs ▸ hg.trans hg', fun g g'' hf hgg => ?_⟩
  obtain ⟨g', h₁, h₂⟩ := Feed.gives_append_iff.1 hgg
  have hf' : g'.finished = (feed (stateOf (x s))).finished := by
    rw [h₁.finished_eq, hg.finished_eq, hf]
  rw [hy g g' (hon g g' hf h₁), hs, hon' g' g'' hf' h₂]

/-- Going on from a step that has a result. -/
theorem Local.ok {x : σ → EStateM.Result ε σ α} {y z : σ → EStateM.Result ε σ β} {a : α} {s₁ : σ}
    (hx : Local x s) (h : x s = .ok a s₁) (hz : Local z s₁)
    (hy : ∀ g g', x (on s g) = .ok a (on s₁ g') → y (on s g) = z (on s₁ g')) : Local y s := by
  refine hx.andThen (z := z) ?_ ?_
  · rw [h]
    exact hz
  · rw [h]
    exact hy

/-- Failing where a step fails. -/
theorem Local.error {x : σ → EStateM.Result ε σ α} {y : σ → EStateM.Result ε σ β} {e : ε} {s₁ : σ}
    (hx : Local x s) (h : x s = .error e s₁)
    (hy : ∀ g g', x (on s g) = .error e (on s₁ g') → y (on s g) = .error e (on s₁ g')) :
    Local y s := by
  refine hx.andThen (z := .error e) ?_ ?_
  · exact .of_still rfl fun _ _ => rfl
  · rw [h]
    exact hy

end Local

/-! ## Lexers -/

namespace Lexer

/-- A step that asks its reader once: it goes on after a byte, and is done at the end of the input
or a failure. -/
theorem local_ask {α : Type} {x : Lexer → EStateM.Result LexicalError Lexer α} {l : Lexer}
    (hf : l.finished = false) (more : UInt8 → Lexer → EStateM.Result LexicalError Lexer α)
    (last : α) (hx : ∀ q, x (on l ⟨q, false⟩) =
      match q.next with
      | .error reason r => .error (.readFailure reason) (on l ⟨r, false⟩)
      | .ok none r => .ok last (on l ⟨r, true⟩)
      | .ok (some b) r => more b (on l ⟨r, false⟩))
    (hmore : ∀ b r, Local (more b) (on l ⟨r, false⟩)) : Local x l := by
  cases he : l.reader.event with
  | mk e r =>
    cases e with
    | byte b =>
      refine .of_event hf he (fun q q' h => ?_) (hmore b r)
      rw [hx, Reader.next_eq_event, h]
      rfl
    | ended =>
      refine .of_event (y := .ok last) hf he (fun q q' h => ?_) (.of_still rfl fun _ _ => rfl)
      rw [hx, Reader.next_eq_event, h]
      rfl
    | failure reason =>
      refine .of_event (y := .error (.readFailure reason)) hf he (fun q q' h => ?_)
        (.of_still rfl fun _ _ => rfl)
      rw [hx, Reader.next_eq_event, h]
      rfl

theorem local_readGroup (group : List UInt8) (missing : Nat) (l : Lexer)
    (hf : l.finished = false) : Local (readGroup group missing) l := by
  induction missing generalizing group l with
  | zero => exact .of_still rfl fun _ _ => rfl
  | succ missing ih =>
    exact local_ask hf (fun b => readGroup (group ++ [b]) missing) (some Utf8.replacement)
      (fun _ => rfl) fun b r => ih (group ++ [b]) _ rfl

theorem local_readChar (l : Lexer) : Local readChar l := by
  obtain ⟨reader, pushback, finished⟩ := l
  cases pushback with
  | some c => exact .of_still rfl fun _ _ => rfl
  | none =>
    cases finished with
    | true =>
      refine .of_still rfl fun g hg => ?_
      simp only [readChar, on, onFeed]
      rw [hg]
      rfl
    | false =>
      exact local_ask rfl (fun b => readGroup [b] (Utf8.following b)) none (fun _ => rfl)
        fun b r => local_readGroup [b] (Utf8.following b) _ rfl

theorem readDigits_eq (digits : List Char) (l : Lexer) : readDigits digits l =
    match l.readChar with
    | .error e l' => .error e l'
    | .ok none l' => .ok digits.reverse l'
    | .ok (some c) l' =>
      if c.isDigit then readDigits (c :: digits) l'
      else .ok digits.reverse { l' with pushback := some c } := by
  rw [readDigits]
  split <;> simp_all

theorem local_readDigits (digits : List Char) (l : Lexer) : Local (readDigits digits) l := by
  induction digits, l using readDigits.induct with
  | case1 digits l e l₁ hc =>
    refine (local_readChar l).error hc fun g g' h => ?_
    rw [readDigits_eq, h]
  | case2 digits l l₁ hc =>
    refine (local_readChar l).ok (z := .ok digits.reverse) hc (.of_still rfl fun _ _ => rfl)
      fun g g' h => ?_
    rw [readDigits_eq, h]
  | case3 digits l c l₁ hc hd ih =>
    refine (local_readChar l).ok hc ih fun g g' h => ?_
    rw [readDigits_eq, h]
    exact if_pos hd
  | case4 digits l c l₁ hc hd =>
    refine (local_readChar l).ok (z := fun l => .ok digits.reverse { l with pushback := some c }) hc
      (.of_still rfl fun _ _ => rfl) fun g g' h => ?_
    rw [readDigits_eq, h]
    exact if_neg hd

theorem next_of_readChar_error {l l' : Lexer} {e : LexicalError} (h : l.readChar = .error e l') :
    l.next = .error e l' := by
  rw [next]
  split <;> simp_all

theorem next_of_readChar_none {l l' : Lexer} (h : l.readChar = .ok none l') :
    l.next = .ok .eof l' := by
  rw [next]
  split <;> simp_all

/-- What a call makes of a literal, once its first digit is read. -/
theorem local_literal (c : Char) (l : Lexer) : Local (fun l : Lexer =>
    match readDigits [c] l with
    | .error e l' => .error e l'
    | .ok digits l' =>
      match literalToken digits with
      | .error e => .error e l'
      | .ok t => .ok t l') l := by
  cases hr : readDigits [c] l with
  | error e l₁ =>
    refine (local_readDigits [c] l).error hr fun g g' h => ?_
    rw [h]
  | ok digits l₁ =>
    cases ht : literalToken digits with
    | error e =>
      refine (local_readDigits [c] l).ok (z := .error e) hr (.of_still rfl fun _ _ => rfl)
        fun g g' h => ?_
      rw [h]
      simp only [ht]
    | ok t =>
      refine (local_readDigits [c] l).ok (z := .ok t) hr (.of_still rfl fun _ _ => rfl)
        fun g g' h => ?_
      rw [h]
      simp only [ht]

/-- What a call makes of any other character. -/
theorem local_mark (c : Char) (l : Lexer) : Local (fun l : Lexer =>
    match Token.ofPunctuation? c with
    | some t => .ok t l
    | none => .error (LexicalError.invalidCharacter c) l) l := by
  cases Token.ofPunctuation? c with
  | some t => exact .of_still rfl fun _ _ => rfl
  | none => exact .of_still rfl fun _ _ => rfl

/-- **Taking a token is local.** -/
theorem local_next (l : Lexer) : Local next l := by
  induction hn : l.size using Nat.strongRecOn generalizing l with
  | ind n ih =>
    cases hc : l.readChar with
    | error e l₁ =>
      refine (local_readChar l).error hc fun g g' h => ?_
      rw [next_of_readChar_error h]
    | ok c l₁ =>
      cases c with
      | none =>
        refine (local_readChar l).ok (z := .ok .eof) hc (.of_still rfl fun _ _ => rfl)
          fun g g' h => ?_
        rw [next_of_readChar_none h]
      | some c =>
        by_cases hb : isBlank c = true
        · refine (local_readChar l).ok hc (ih _ (hn ▸ size_of_readChar_some hc) l₁ rfl)
            fun g g' h => ?_
          rw [next_of_readChar h, if_pos hb]
        · by_cases hd : c.isDigit = true
          · refine (local_readChar l).ok hc (local_literal c l₁) fun g g' h => ?_
            have hn := next_of_readChar h
            rw [if_neg hb, if_pos hd] at hn
            exact hn
          · refine (local_readChar l).ok hc (local_mark c l₁) fun g g' h => ?_
            have hn := next_of_readChar h
            rw [if_neg hb, if_neg hd] at hn
            exact hn

end Lexer

/-! ## Parsers -/

namespace Parse

variable {α β : Type} {c : Cursor}

theorem local_pure (a : α) : Local (pure a : Parse α) c := .of_still rfl fun _ _ => rfl

theorem local_throw (e : Error) : Local (throw e : Parse α) c := .of_still rfl fun _ _ => rfl

theorem local_bind {x : Parse α} {f : α → Parse β} (hx : Local x c)
    (hf : ∀ a c', x c = .ok a c' → Local (f a) c') : Local (x >>= f : Parse β) c := by
  cases h : x c with
  | ok a c₁ =>
    refine hx.ok h (hf a c₁ h) fun g g' hr => ?_
    show EStateM.bind x f (on c g) = _
    rw [EStateM.bind, hr]
  | error e c₁ =>
    refine hx.error h fun g g' hr => ?_
    show EStateM.bind x f (on c g) = _
    rw [EStateM.bind, hr]

/-- Looking at the cursor, but not at its feed. -/
theorem local_get {f : Cursor → Parse α} (h : Local (f c) c) (hf : ∀ g, f (on c g) = f c) :
    Local (get >>= f : Parse α) c := by
  obtain ⟨es, hg, hon⟩ := h
  refine ⟨es, hg, fun g g' hfin hgg => ?_⟩
  show f (on c g) (on c g) = _
  rw [hf g]
  exact hon g g' hfin hgg

end Parse

open Parse

namespace Cursor

theorem local_fetch (c : Cursor) : Local fetch c := by
  obtain ⟨es, hg, hon⟩ := c.lexer.local_next
  cases h : c.lexer.next with
  | ok t l =>
    have hc : fetch c = .ok () ⟨t, l, .lexed t :: c.log⟩ := by rw [fetch, h]
    rw [h] at hg hon
    refine ⟨es, hc ▸ hg, fun g g' hf hgg => ?_⟩
    have hn : (on c g).lexer.next = .ok t (on l g') := hon g g' hf hgg
    rw [hc, fetch, hn]
    rfl
  | error e l =>
    have hc : fetch c = .error (.lexical e) { c with lexer := l } := by rw [fetch, h]
    rw [h] at hg hon
    refine ⟨es, hc ▸ hg, fun g g' hf hgg => ?_⟩
    have hn : (on c g).lexer.next = .error e (on l g') := hon g g' hf hgg
    rw [hc, fetch, hn]
    rfl

theorem local_report (r : Record) (c : Cursor) : Local (report r) c :=
  .of_still rfl fun _ _ => rfl

theorem local_require (t : Token) (c : Cursor) : Local (require t) c := by
  refine local_get ?_ fun _ => rfl
  dsimp only
  split
  · exact local_throw _
  · exact local_pure ()

theorem local_expect (t : Token) (c : Cursor) : Local (expect t) c :=
  local_bind (local_require t c) fun _ c₁ _ =>
    local_bind (local_report _ c₁) fun _ c₂ _ => local_fetch c₂

end Cursor

theorem Move.local_run (move : Move) (c : Cursor) : Local move.run c := by
  cases move with
  | advance => exact Cursor.local_fetch c
  | expect t => exact Cursor.local_expect t c

open Cursor

section Chains

variable {ο α : Type} {item : Rule α}

/-- The loop that reads a chain, one round. -/
theorem Rule.readChain_eq (item : Rule α) (op? : Token → Option ο) (move : Move)
    (before : List (α × ο)) : item.readChain op? move before = (do
      let a ← item.run
      match op? (← get).current with
      | none => return .endingIn a before
      | some o =>
        move.run
        item.readChain op? move ((a, o) :: before)) := by
  funext c
  show _ = EStateM.bind item.run _ c
  rw [readChain, EStateM.bind]
  split
  · next hi => rw [hi]
  · next a c₁ hi =>
    rw [hi]
    dsimp only
    rw [Parse.get_bind]
    cases op? c₁.current with
    | none => rfl
    | some o =>
      show _ = EStateM.bind move.run _ c₁
      rw [EStateM.bind]
      dsimp only
      split <;> simp_all

theorem Rule.local_readChain (hitem : ∀ c, Local item.run c) (op? : Token → Option ο)
    (move : Move) (before : List (α × ο)) (c : Cursor) :
    Local (item.readChain op? move before) c := by
  induction hn : c.size using Nat.strongRecOn generalizing before c with
  | ind n ih =>
    rw [readChain_eq]
    refine local_bind (hitem c) fun a c₁ hi => local_get ?_ fun _ => rfl
    split
    · exact local_pure _
    · refine local_bind (move.local_run c₁) fun _ c₂ ha => ih c₂.size ?_ _ c₂ rfl
      have := item.progress hi
      have := Move.size_of_run ha
      omega

end Chains

namespace Grammar

/-- A rule all of whose runs are local. -/
def LocalRule {α : Type} (r : Rule α) : Prop := ∀ c, Local r.run c

variable {inner : Rule Factor}

theorem local_expr (hi : LocalRule inner) : LocalRule (expr inner) :=
  Rule.local_readChain (Rule.local_readChain hi Token.mulOp? _ []) Token.addOp? _ []

theorem local_enclosed (hi : LocalRule inner) (opener closer : Token) (c : Cursor) :
    Local (enclosed inner opener closer) c :=
  local_bind (local_expect opener c) fun _ c₁ _ =>
    local_bind (local_expr hi c₁) fun _ c₂ _ =>
      local_bind (local_expect closer c₂) fun _ _ _ => local_pure _

theorem local_operand (hi : LocalRule inner) (c : Cursor) : Local (operand inner) c := by
  refine local_get ?_ fun _ => rfl
  cases c.current with
  | number v => exact local_bind (local_fetch c) fun _ _ _ => local_pure _
  | leftParen => exact local_bind (local_enclosed hi _ _ c) fun _ _ _ => local_pure _
  | bar => exact local_bind (local_enclosed hi _ _ c) fun _ _ _ => local_pure _
  | _ => exact local_throw _

theorem local_powerOf (base : Factor) (hi : LocalRule inner) (c : Cursor) :
    Local (powerOf base inner) c := by
  refine local_get ?_ fun _ => rfl
  split
  · exact local_bind (local_expect _ c) fun _ c₁ _ => local_bind (hi c₁) fun _ _ _ => local_pure _
  · exact local_pure _

theorem local_factorOver (hi : LocalRule inner) : LocalRule (factorOver inner) := fun c =>
  local_bind (local_operand hi c) fun base c₁ _ => local_powerOf base hi c₁

theorem local_factor (depth : Nat) : LocalRule (factor depth) := by
  induction depth with
  | zero => exact local_factorOver fun _ => local_throw _
  | succ depth ih => exact local_factorOver ih

theorem local_program : LocalRule program :=
  Rule.local_readChain (local_expr (local_factor maxNesting)) _ _ []

/-- **Reading a program is local.** -/
theorem local_wholeProgram (c : Cursor) : Local wholeProgram c :=
  local_bind (local_fetch c) fun _ c₁ _ =>
    local_bind (local_program c₁) fun _ c₂ _ =>
      local_bind (local_require .stop c₂) fun _ c₃ _ =>
        local_bind (local_report _ c₃) fun _ _ _ => local_pure _

end Grammar

end Calculator
