import Calculator.Error
import Calculator.Proofs.Derivation

/-!
# A one-pass automaton for programs

Whether tokens form a program can be told in one pass from the left. The automaton remembers
whether an operand is due, which brackets are open, and how many carets are pending at each level:
a caret stays pending until an operator of a chain, a semicolon or the closing of its level.

Brackets and pending carets together are the depth of a state. A state past the limit refuses
whatever comes next, so the token that led there is still accepted.

**Theorem (`judge_eq_accepted_iff`).** With a given limit, the automaton accepts exactly the
tokens that begin with a program of no greater depth.

That every program is accepted is shown along its tree, where the level of each token is the
depth of the state after it. That nothing else is accepted is an induction on the tokens: what
the automaton still accepts in a state can be split into what is left of each open bracket.
-/

namespace Calculator.Automaton

inductive Bracket where
  | paren
  | bars
deriving DecidableEq

def Bracket.opener : Bracket → Token
  | .paren => .leftParen
  | .bars => .bar

def Bracket.closer : Bracket → Token
  | .paren => .rightParen
  | .bars => .bar

structure State where
  /-- Whether an operand is due. -/
  due : Bool
  /-- The carets pending at the innermost level. -/
  carets : Nat
  /-- The open brackets, innermost first, each with the carets pending around it. -/
  opened : List (Bracket × Nat)

/-- What the automaton makes of some tokens. -/
inductive Verdict where
  | reading (s : State)
  | accepted
  | refused (e : ParseError)

/-- How many brackets are open and carets pending around the innermost level. -/
def around : List (Bracket × Nat) → Nat
  | [] => 0
  | (_, k) :: opened => k + 1 + around opened

namespace State

def start : State := ⟨true, 0, []⟩

def depth (s : State) : Nat := s.carets + around s.opened

/-- Opens a bracket. -/
def push (s : State) (b : Bracket) : State := ⟨true, 0, (b, s.carets) :: s.opened⟩

/-- Takes an operator of a chain, or a semicolon. No caret is pending after it. -/
def restart (s : State) : State := { s with due := true, carets := 0 }

/-- Takes a caret. -/
def raise (s : State) : State := { s with due := true, carets := s.carets + 1 }

/-- Takes an operand in which `k` carets stay pending. -/
def filled (s : State) (k : Nat) : State := { s with due := false, carets := s.carets + k }

/-- What comes where an operand is due. -/
def operand (s : State) : Token → Verdict
  | .number _ => .reading (s.filled 0)
  | .leftParen => .reading (s.push .paren)
  | .bar => .reading (s.push .bars)
  | t => .refused (.unexpected t)

/-- What comes after an operand. -/
def operator (s : State) (t : Token) : Verdict :=
  if t = .caret then .reading s.raise
  else if t.mulOp?.isSome || t.addOp?.isSome then .reading s.restart
  else
    match s.opened with
    | [] =>
      if t = .semicolon then .reading s.restart
      else if t = .stop then .accepted
      else .refused (.mismatch .stop t)
    | (b, k) :: opened =>
      if t = b.closer then .reading ⟨false, k, opened⟩
      else .refused (.mismatch b.closer t)

/-- One token, whatever the depth. -/
def move (s : State) (t : Token) : Verdict := if s.due then s.operand t else s.operator t

/-- One token, with a limit on the depth. -/
def step (limit : Nat) (s : State) (t : Token) : Verdict :=
  if limit < s.depth then .refused .nestingTooDeep else s.move t

end State

/-- Goes on from the state that was reached, if the matter is not settled yet. -/
def Verdict.andThen (v : Verdict) (f : State → Verdict) : Verdict :=
  match v with
  | .reading s => f s
  | .accepted => .accepted
  | .refused e => .refused e

/-- All tokens up to the one that settles the matter. -/
def judge (limit : Nat) (s : State) : List Token → Verdict
  | [] => .reading s
  | t :: ts => (s.step limit t).andThen fun s' => judge limit s' ts

open State

variable {limit : Nat} {s s' : State}

theorem judge_append (limit : Nat) (s : State) (ts us : List Token) :
    judge limit s (ts ++ us) = (judge limit s ts).andThen fun s' => judge limit s' us := by
  induction ts generalizing s with
  | nil => rfl
  | cons t ts ih =>
    rw [List.cons_append, judge, judge]
    cases s.step limit t with
    | reading s₁ => exact ih s₁
    | accepted => rfl
    | refused e => rfl

theorem judge_singleton (limit : Nat) (s : State) (t : Token) :
    judge limit s [t] = s.step limit t := by
  rw [judge]
  cases s.step limit t <;> rfl

theorem step_of_le {t : Token} (h : s.depth ≤ limit) : s.step limit t = s.move t :=
  if_neg (Nat.not_lt.2 h)

theorem step_of_lt {t : Token} (h : limit < s.depth) :
    s.step limit t = .refused .nestingTooDeep :=
  if_pos h

theorem step_eq_reading_iff {t : Token} :
    s.step limit t = .reading s' ↔ s.depth ≤ limit ∧ s.move t = .reading s' := by
  by_cases hs : s.depth ≤ limit
  · rw [step_of_le hs, and_iff_right hs]
  · rw [step_of_lt (Nat.lt_of_not_le hs)]
    exact ⟨nofun, fun h => absurd h.1 hs⟩

/-! ## Programs are accepted -/

/-- A run without a limit along tokens with their levels, each the depth of the state after its
token. -/
inductive Trace : State → List (Token × Nat) → State → Prop
  | nil (s : State) : Trace s [] s
  | cons {s s₁ s' : State} {t : Token} {k : Nat} {xs : List (Token × Nat)} :
      s.move t = .reading s₁ → s₁.depth = k → Trace s₁ xs s' → Trace s ((t, k) :: xs) s'

theorem Trace.append {s₁ : State} {xs ys : List (Token × Nat)} (h : Trace s xs s₁)
    (h' : Trace s₁ ys s') : Trace s (xs ++ ys) s' := by
  induction h with
  | nil s => exact h'
  | cons hm hk _ ih => exact .cons hm hk (ih h')

theorem Trace.split {xs ys : List (Token × Nat)} (h : Trace s (xs ++ ys) s') :
    ∃ s₁, Trace s xs s₁ ∧ Trace s₁ ys s' := by
  induction xs generalizing s with
  | nil => exact ⟨s, .nil s, h⟩
  | cons x xs ih =>
    cases h with
    | cons hm hk ht =>
      obtain ⟨s₁, hx, hy⟩ := ih ht
      exact ⟨s₁, .cons hm hk hx, hy⟩

theorem depth_push (s : State) (b : Bracket) : (s.push b).depth = s.depth + 1 := by
  simp only [depth, push, around]
  omega

theorem move_opener (b : Bracket) (hs : s.due = true) : s.move b.opener = .reading (s.push b) := by
  rw [move, if_pos hs]
  cases b <;> rfl

theorem move_closer (s : State) (b : Bracket) (k : Nat) :
    ((s.push b).filled k).move b.closer = .reading (s.filled 0) := by
  cases b <;> rfl

theorem depth_raise (s : State) : s.raise.depth = s.depth + 1 := by
  simp only [depth, raise]
  omega

theorem filled_raise (s : State) (k : Nat) : s.raise.filled k = s.filled (k + 1) := by
  simp only [filled, raise]
  congr 1
  omega

theorem restart_filled (hs : s.due = true) (hc : s.carets = 0) (k : Nat) :
    (s.filled k).restart = s := by
  cases s
  cases hs
  cases hc
  rfl

/-- An operator of a chain brings back the state before the operand. -/
theorem move_chainOp {t : Token} (ht : (t.mulOp?.isSome || t.addOp?.isSome) = true)
    (hs : s.due = true) (hc : s.carets = 0) (k : Nat) : (s.filled k).move t = .reading s := by
  have hne : t ≠ .caret := by rintro rfl; cases ht
  show (s.filled k).operator t = _
  rw [operator, if_neg hne, if_pos ht, restart_filled hs hc]

theorem move_mulOp {t : Token} {o : MulOp} (ht : t.mulOp? = some o) (hs : s.due = true)
    (hc : s.carets = 0) (k : Nat) : (s.filled k).move t = .reading s :=
  move_chainOp (by simp [ht]) hs hc k

theorem move_addOp {t : Token} {o : AddOp} (ht : t.addOp? = some o) (hs : s.due = true)
    (hc : s.carets = 0) (k : Nat) : (s.filled k).move t = .reading s :=
  move_chainOp (by simp [ht]) hs hc k

@[simp] theorem mulOp?_token (o : MulOp) : o.token.mulOp? = some o := by cases o <;> rfl

@[simp] theorem addOp?_token (o : AddOp) : o.token.addOp? = some o := by cases o <;> rfl

/-- What lies between brackets, once it is known for the expression inside. -/
theorem Trace.enclosed {xs : List (Token × Nat)} {k : Nat} (b : Bracket) (hs : s.due = true)
    (h : Trace (s.push b) xs ((s.push b).filled k)) :
    Trace s ((b.opener, s.depth + 1) :: (xs ++ [(b.closer, s.depth)])) (s.filled 0) :=
  .cons (move_opener b hs) (depth_push s b)
    (h.append (.cons (move_closer s b k) rfl (.nil _)))

mutual

theorem trace_factor : ∀ (f : Factor) (s : State), f.IsNormal → s.due = true →
    ∃ k, Trace s (f.levels s.depth) (s.filled k) ∧ (f.isPower = false → k = 0)
  | .number v, s, _, hs => by
    have hm : s.move (.number v) = .reading (s.filled 0) := by
      rw [move, if_pos hs]
      rfl
    exact ⟨0, .cons hm rfl (.nil _), fun _ => rfl⟩
  | .group e, s, hf, hs => by
    obtain ⟨k, hk⟩ := trace_expr e (s.push .paren) hf rfl rfl
    rw [depth_push] at hk
    exact ⟨0, hk.enclosed .paren hs, fun _ => rfl⟩
  | .bars e, s, hf, hs => by
    obtain ⟨k, hk⟩ := trace_expr e (s.push .bars) hf rfl rfl
    rw [depth_push] at hk
    exact ⟨0, hk.enclosed .bars hs, fun _ => rfl⟩
  | .power b p, s, hf, hs => by
    obtain ⟨k, hk, hb⟩ := trace_factor b s hf.2.1 hs
    obtain rfl := hb hf.1
    -- The exponent starts with one more caret pending.
    obtain ⟨m, hm, -⟩ := trace_factor p s.raise hf.2.2 rfl
    rw [depth_raise, filled_raise] at hm
    exact ⟨m + 1, hk.append (.cons rfl (depth_raise s) hm), nofun⟩

theorem trace_term : ∀ (t : Term) (s : State), t.IsNormal → s.due = true → s.carets = 0 →
    ∃ k, Trace s (t.levels s.depth) (s.filled k)
  | .single f, s, ht, hs, _ => by
    obtain ⟨k, hk, -⟩ := trace_factor f s ht hs
    exact ⟨k, hk⟩
  | .cons f o rest, s, ht, hs, hc => by
    obtain ⟨k, hk, -⟩ := trace_factor f s ht.1 hs
    obtain ⟨m, hm⟩ := trace_term rest s ht.2 hs hc
    exact ⟨m, hk.append (.cons (move_mulOp (mulOp?_token o) hs hc k) rfl hm)⟩

theorem trace_expr : ∀ (e : Expr) (s : State), e.IsNormal → s.due = true → s.carets = 0 →
    ∃ k, Trace s (e.levels s.depth) (s.filled k)
  | .single t, s, he, hs, hc => trace_term t s he hs hc
  | .cons t o rest, s, he, hs, hc => by
    obtain ⟨k, hk⟩ := trace_term t s he.1 hs hc
    obtain ⟨m, hm⟩ := trace_expr rest s he.2 hs hc
    exact ⟨m, hk.append (.cons (move_addOp (addOp?_token o) hs hc k) rfl hm)⟩

end

theorem trace_program (p : Program) (hp : p.IsNormal) :
    ∃ k, Trace start p.levels (start.filled k) := by
  induction p with
  | single e => exact trace_expr e start hp rfl rfl
  | cons e o rest ih =>
    obtain ⟨k, hk⟩ := trace_expr e start hp.1 rfl rfl
    obtain ⟨m, hm⟩ := ih hp.2
    exact ⟨m, hk.append (.cons rfl rfl hm)⟩

/-- Within the limit the automaton follows a trace. -/
theorem Trace.judge_eq {xs : List (Token × Nat)} (h : Trace s xs s') (hs : s.depth ≤ limit)
    (hx : ∀ x ∈ xs, x.2 ≤ limit) : judge limit s (xs.map Prod.fst) = .reading s' ∧
      s'.depth ≤ limit := by
  induction h with
  | nil s => exact ⟨rfl, hs⟩
  | cons hm hk _ ih =>
    rw [List.forall_mem_cons] at hx
    rw [List.map_cons, judge, step_of_le hs, hm]
    exact ih (hk ▸ hx.1) hx.2

theorem judge_program {p : Program} (hp : p.IsNormal) (hd : p.depth ≤ limit) (us : List Token) :
    judge limit start (p.tokens ++ .stop :: us) = .accepted := by
  obtain ⟨k, hk⟩ := trace_program p hp
  obtain ⟨hr, hle⟩ := hk.judge_eq (Nat.zero_le limit) (p.levels_le_iff.2 hd)
  rw [← p.map_fst_levels, judge_append, hr]
  show judge limit (start.filled k) (.stop :: us) = .accepted
  rw [judge, step_of_le hle]
  rfl

/-- The tokens of a derivation are accepted if it is not too deep. -/
theorem judge_yield (d : Derivation .program) (hd : d.depth ≤ limit) (us : List Token) :
    judge limit start (d.yield ++ us) = .accepted := by
  obtain ⟨hy, hdepth, hn⟩ := d.agrees
  rw [← hy, List.append_assoc]
  exact judge_program hn (hdepth ▸ hd) us

/-! ## What is accepted is a program -/

theorem eq_token_of_mulOp? {t : Token} {o : MulOp} (h : t.mulOp? = some o) : t = o.token := by
  cases t <;> cases h <;> rfl

theorem eq_token_of_addOp? {t : Token} {o : AddOp} (h : t.addOp? = some o) : t = o.token := by
  cases t <;> cases h <;> rfl

theorem operand_eq_reading {t : Token} (h : s.operand t = .reading s') :
    (∃ v, t = .number v ∧ s' = s.filled 0) ∨ ∃ b : Bracket, t = b.opener ∧ s' = s.push b := by
  cases t with
  | number v => cases h; exact .inl ⟨v, rfl, rfl⟩
  | leftParen => cases h; exact .inr ⟨.paren, rfl, rfl⟩
  | bar => cases h; exact .inr ⟨.bars, rfl, rfl⟩
  | _ => cases h

theorem operator_eq_reading {t : Token} (h : s.operator t = .reading s') :
    (t = .caret ∧ s' = s.raise) ∨ (∃ o : MulOp, t = o.token ∧ s' = s.restart) ∨
    (∃ o : AddOp, t = o.token ∧ s' = s.restart) ∨
    (t = .semicolon ∧ s.opened = [] ∧ s' = s.restart) ∨
    ∃ b k opened, s.opened = (b, k) :: opened ∧ t = b.closer ∧ s' = ⟨false, k, opened⟩ := by
  unfold operator at h
  split at h
  · next hc => cases h; exact .inl ⟨hc, rfl⟩
  · split at h
    · next ho =>
      cases h
      rw [Bool.or_eq_true] at ho
      rcases ho with hm | ha
      · obtain ⟨o, hm⟩ := Option.isSome_iff_exists.1 hm
        exact .inr (.inl ⟨o, eq_token_of_mulOp? hm, rfl⟩)
      · obtain ⟨o, ha⟩ := Option.isSome_iff_exists.1 ha
        exact .inr (.inr (.inl ⟨o, eq_token_of_addOp? ha, rfl⟩))
    · split at h
      · next hn =>
        split at h
        · next hs => cases h; exact .inr (.inr (.inr (.inl ⟨hs, hn, rfl⟩)))
        · split at h <;> cases h
      · next b k opened hn =>
        split at h
        · next ht => cases h; exact .inr (.inr (.inr (.inr ⟨b, k, opened, hn, ht, rfl⟩)))
        · cases h

theorem operator_eq_accepted {t : Token} (h : s.operator t = .accepted) :
    t = .stop ∧ s.opened = [] := by
  unfold operator at h
  split at h
  · cases h
  · split at h
    · cases h
    · split at h
      · next hn =>
        split at h
        · cases h
        · split at h
          · next ht => exact ⟨ht, hn⟩
          · cases h
      · split at h <;> cases h

theorem ne_of_move_reading {t : Token} (h : s.move t = .reading s') : t ≠ .stop ∧ t ≠ .eof := by
  unfold move at h
  split at h
  · rcases operand_eq_reading h with ⟨v, rfl, -⟩ | ⟨b, rfl, -⟩
    · simp
    · cases b <;> simp [Bracket.opener]
  · rcases operator_eq_reading h with ⟨rfl, -⟩ | ⟨o, rfl, -⟩ | ⟨o, rfl, -⟩ | ⟨rfl, -, -⟩ |
      ⟨b, k, opened, -, rfl, -⟩
    · simp
    · cases o <;> simp [MulOp.token]
    · cases o <;> simp [AddOp.token]
    · simp
    · cases b <;> simp [Bracket.closer]

mutual

/-- What may follow a factor while some brackets are open: the rest of its term and of its
expression, and then what may follow those. -/
inductive AfterFactor (limit : Nat) : List (Bracket × Nat) → List Token → Prop
  | intro {opened : List (Bracket × Nat)} {us : List Token} (terms : Derivation .termRest)
      (exprs : Derivation .exprRest) : around opened + terms.depth ≤ limit →
      around opened + exprs.depth ≤ limit → AfterExpr limit opened us →
      AfterFactor limit opened (terms.yield ++ (exprs.yield ++ us))

/-- What may follow an expression while some brackets are open: the bracket that closes it, as the
end of a factor one level further out, or the rest of the program. -/
inductive AfterExpr (limit : Nat) : List (Bracket × Nat) → List Token → Prop
  | list (rest : Derivation .exprListRest) (us : List Token) : rest.depth ≤ limit →
      AfterExpr limit [] (rest.yield ++ .stop :: us)
  | close {opened : List (Bracket × Nat)} {us : List Token} (b : Bracket) (k : Nat)
      (x : Derivation .exponent) : k + around opened + x.depth ≤ limit →
      AfterFactor limit opened us →
      AfterExpr limit ((b, k) :: opened) (b.closer :: (x.yield ++ us))

end

theorem AfterExpr.afterFactor {opened : List (Bracket × Nat)} {us : List Token}
    (h : AfterExpr limit opened us) (hl : around opened ≤ limit) :
    AfterFactor limit opened us :=
  .intro .termEnd .exprEnd hl hl h

/-- A factor with an operator of a product before it extends the term it follows. -/
theorem AfterFactor.mul {opened : List (Bracket × Nat)} {us : List Token} (o : MulOp)
    (f : Derivation .factor) (hf : around opened + f.depth ≤ limit)
    (h : AfterFactor limit opened us) :
    AfterFactor limit opened (o.token :: (f.yield ++ us)) := by
  obtain ⟨terms, exprs, ht, he, hu⟩ := h
  have hd : around opened + max f.depth terms.depth ≤ limit := by omega
  cases o with
  | mul =>
    simpa [Derivation.yield, MulOp.token] using AfterFactor.intro (.times f terms) exprs hd he hu
  | div =>
    simpa [Derivation.yield, MulOp.token] using AfterFactor.intro (.slash f terms) exprs hd he hu

/-- A factor with an operator of a sum before it starts the next term. -/
theorem AfterFactor.add {opened : List (Bracket × Nat)} {us : List Token} (o : AddOp)
    (f : Derivation .factor) (hf : around opened + f.depth ≤ limit)
    (h : AfterFactor limit opened us) :
    AfterFactor limit opened (o.token :: (f.yield ++ us)) := by
  obtain ⟨terms, exprs, ht, he, hu⟩ := h
  have hd : around opened + max (max f.depth terms.depth) exprs.depth ≤ limit := by omega
  have hl : around opened + 0 ≤ limit := by omega
  cases o with
  | add =>
    simpa [Derivation.yield, AddOp.token] using
      AfterFactor.intro .termEnd (.plus (.term f terms) exprs) hl hd hu
  | sub =>
    simpa [Derivation.yield, AddOp.token] using
      AfterFactor.intro .termEnd (.minus (.term f terms) exprs) hl hd hu

/-- A factor with a semicolon before it starts the next expression of the program. -/
theorem AfterFactor.semicolon {us : List Token} (f : Derivation .factor) (hf : f.depth ≤ limit)
    (h : AfterFactor limit [] us) : AfterFactor limit [] (.semicolon :: (f.yield ++ us)) := by
  obtain ⟨terms, exprs, ht, he, ⟨rest, us, hr⟩⟩ := h
  simp only [around, Nat.zero_add] at ht he
  have hd : max (max (max f.depth terms.depth) exprs.depth) rest.depth ≤ limit := by omega
  have := AfterExpr.list (.semicolon (.expr (.term f terms) exprs) rest) us hd
  simpa [Derivation.yield] using this.afterFactor (Nat.zero_le limit)

/-- What is not a program yet holds neither a stop nor the end of the input. -/
theorem not_mem_of_reading {ts : List Token} (h : judge limit s ts = .reading s') :
    .stop ∉ ts ∧ .eof ∉ ts := by
  induction ts generalizing s with
  | nil => simp
  | cons t ts ih =>
    rw [judge] at h
    cases ht : s.step limit t with
    | reading s₁ =>
      rw [ht] at h
      obtain ⟨hs, he⟩ := ih h
      obtain ⟨hts, hte⟩ := ne_of_move_reading (step_eq_reading_iff.1 ht).2
      simp [hs, he, hts.symm, hte.symm]
    | accepted => rw [ht] at h; cases h
    | refused e => rw [ht] at h; cases h

/-- What the automaton still accepts in a state. -/
def Remainder (limit : Nat) (s : State) (ts : List Token) : Prop :=
  if s.due then ∃ (f : Derivation .factor) (us : List Token), ts = f.yield ++ us ∧
    s.depth + f.depth ≤ limit ∧ AfterFactor limit s.opened us
  else ∃ (x : Derivation .exponent) (us : List Token), ts = x.yield ++ us ∧
    s.depth + x.depth ≤ limit ∧ AfterFactor limit s.opened us

/-- A token where an operand is due begins a factor. -/
theorem Remainder.operand {t : Token} {ts : List Token} (ht : s.operand t = .reading s')
    (h : Remainder limit s' ts) : ∃ (f : Derivation .factor) (us : List Token),
      t :: ts = f.yield ++ us ∧ s.depth + f.depth ≤ limit ∧ AfterFactor limit s.opened us := by
  rcases operand_eq_reading ht with ⟨v, rfl, rfl⟩ | ⟨b, rfl, rfl⟩
  · obtain ⟨x, us, rfl, hx, hu⟩ := h
    exact ⟨.number v x, us, rfl, hx, hu⟩
  · -- The factor inside is the first of an expression, and the bracket around it closes.
    obtain ⟨f, us, rfl, hf, ⟨terms, exprs, ht, he, hc⟩⟩ := h
    cases hc with
    | @close _ us _ _ x hx hu =>
      rw [depth_push] at hf
      simp only [push, around] at ht he
      let inner : Derivation .expr := .expr (.term f terms) exprs
      have hinner : s.depth + max (inner.depth + 1) x.depth ≤ limit := by
        simp only [inner, Derivation.depth]
        simp only [depth] at *
        omega
      cases b with
      | paren =>
        refine ⟨.group inner x, us, ?_, hinner, hu⟩
        simp [inner, Derivation.yield, Bracket.opener, Bracket.closer]
      | bars =>
        refine ⟨.bars inner x, us, ?_, hinner, hu⟩
        simp [inner, Derivation.yield, Bracket.opener, Bracket.closer]

/-- A token after an operand begins an exponent, or ends the factor. -/
theorem Remainder.operator {t : Token} {ts : List Token} (hs : s.depth ≤ limit)
    (ht : s.operator t = .reading s') (h : Remainder limit s' ts) :
    ∃ (x : Derivation .exponent) (us : List Token),
      t :: ts = x.yield ++ us ∧ s.depth + x.depth ≤ limit ∧ AfterFactor limit s.opened us := by
  have hl : around s.opened ≤ limit := by
    simp only [depth] at hs
    omega
  rcases operator_eq_reading ht with ⟨rfl, rfl⟩ | ⟨o, rfl, rfl⟩ | ⟨o, rfl, rfl⟩ | ⟨rfl, hn, rfl⟩ |
    ⟨b, k, opened, hn, rfl, rfl⟩
  · obtain ⟨f, us, rfl, hf, hu⟩ := h
    rw [depth_raise] at hf
    exact ⟨.caret f, us, rfl, by simp only [Derivation.depth]; omega, hu⟩
  · obtain ⟨f, us, rfl, hf, hu⟩ := h
    exact ⟨.noCaret, _, rfl, hs, hu.mul o f (by simpa [depth, restart] using hf)⟩
  · obtain ⟨f, us, rfl, hf, hu⟩ := h
    exact ⟨.noCaret, _, rfl, hs, hu.add o f (by simpa [depth, restart] using hf)⟩
  · obtain ⟨f, us, rfl, hf, hu⟩ := h
    simp only [restart, hn] at hu
    rw [hn]
    exact ⟨.noCaret, _, rfl, hs, hu.semicolon f (by simp only [depth] at hf; omega)⟩
  · obtain ⟨x, us, rfl, hx, hu⟩ := h
    rw [hn] at hl ⊢
    exact ⟨.noCaret, _, rfl, hs, (AfterExpr.close b k x hx hu).afterFactor hl⟩

theorem remainder_of_accepted {ts : List Token} (h : judge limit s ts = .accepted) :
    Remainder limit s ts := by
  induction ts generalizing s with
  | nil => cases h
  | cons t ts ih =>
    have hs : s.depth ≤ limit := by
      refine Nat.not_lt.1 fun hlt => ?_
      rw [judge, step_of_lt hlt] at h
      cases h
    rw [judge, step_of_le hs, move] at h
    unfold Remainder
    split at h
    · next hdue =>
      rw [if_pos hdue]
      cases ht : s.operand t with
      | reading s₁ =>
        rw [ht] at h
        exact (ih h).operand ht
      | accepted => cases t <;> cases ht
      | refused e =>
        rw [ht] at h
        cases h
    · next hdue =>
      rw [if_neg hdue]
      cases ht : s.operator t with
      | reading s₁ =>
        rw [ht] at h
        exact (ih h).operator hs ht
      | accepted =>
        obtain ⟨rfl, hn⟩ := operator_eq_accepted ht
        rw [hn]
        have hstop : AfterExpr limit [] (.stop :: ts) := .list .listEnd ts (Nat.zero_le limit)
        exact ⟨.noCaret, _, rfl, hs, hstop.afterFactor (Nat.zero_le limit)⟩
      | refused e =>
        rw [ht] at h
        cases h

/-- **The automaton accepts exactly the programs.** -/
theorem judge_eq_accepted_iff {ts : List Token} : judge limit start ts = .accepted ↔
    ∃ d : Derivation .program, d.depth ≤ limit ∧ d.yield <+: ts := by
  constructor
  · intro h
    obtain ⟨f, us, rfl, hf, ⟨terms, exprs, ht, he, ⟨rest, us, hr⟩⟩⟩ := remainder_of_accepted h
    refine ⟨.program (.exprList (.expr (.term f terms) exprs) rest), ?_, us, ?_⟩
    · simp only [Derivation.depth]
      simp only [around, depth, start] at *
      omega
    · simp [Derivation.yield]
  · rintro ⟨d, hd, us, rfl⟩
    exact judge_yield d hd us

end Calculator.Automaton
