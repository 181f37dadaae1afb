import Calculator.Reader

/-!
# What a reader gives

A reader that is asked again and again gives one event after another: a byte, a failure, or the
report that the input has ended. Where the bytes are cut into reads and which reads are interrupted
cannot be told from the events.

Whoever asks keeps in mind whether the end was reported, and does not ask again after that. A reader
together with that memory is a `Feed`, and `Feed.Gives` is the trail of events from one feed to
another.

**Theorem (`Reader.event_eq`).** Asking a reader takes the first of its events. Once there are none
left, every answer is that the input has ended.

**Theorem (`Feed.Gives.unique`).** Only one row of events leads from a feed to another: every event
uses up something, and the end of the input is reported once.
-/

namespace Calculator

/-- What a reader gives when it is asked. -/
inductive Event where
  | byte (b : UInt8)
  | failure (reason : String)
  | ended
deriving DecidableEq

/-- The events of a read. An interrupted one leaves none. -/
def Read.events : Read → List Event
  | .bytes [] => [.ended]
  | .bytes (b :: bs) => (b :: bs).map .byte
  | .failure reason => [.failure reason]
  | .interrupted => []

namespace Reader

/-- The events to come. -/
def events (r : Reader) : List Event := r.buffered.map .byte ++ r.upcoming.flatMap Read.events

/-- The next event, and the reader after it. -/
def event (r : Reader) : Event × Reader :=
  match r.next with
  | .ok (some b) r' => (.byte b, r')
  | .ok none r' => (.ended, r')
  | .error reason r' => (.failure reason, r')

theorem next_eq_event (r : Reader) : r.next =
    match r.event with
    | (.byte b, r') => .ok (some b) r'
    | (.ended, r') => .ok none r'
    | (.failure reason, r') => .error reason r' := by
  unfold event
  cases r.next with
  | ok b r' => cases b <;> rfl
  | error reason r' => rfl

/-- Asking after an interrupted read is asking before it. -/
theorem event_interrupted (reads : List Read) :
    event ⟨[], .interrupted :: reads⟩ = event ⟨[], reads⟩ := rfl

/-- **Asking takes the first event.** -/
theorem event_eq (r : Reader) :
    r.event.1 = r.events.headD .ended ∧ r.event.2.events = r.events.tail := by
  obtain ⟨buffered, upcoming⟩ := r
  cases buffered with
  | cons b bs => exact ⟨rfl, rfl⟩
  | nil =>
    induction upcoming with
    | nil => exact ⟨rfl, rfl⟩
    | cons read reads ih =>
      cases read with
      | bytes bs =>
        cases bs with
        | nil => exact ⟨rfl, rfl⟩
        | cons b bs => exact ⟨rfl, rfl⟩
      | failure reason => exact ⟨rfl, rfl⟩
      | interrupted => exact ih

/-- How many more answers a reader has before only the end is left to report. -/
def answersLeft (r : Reader) : Nat := r.size + r.upcoming.length

theorem answersLeft_event (r : Reader) :
    r.event.2.answersLeft + (if r.event.1 = .ended then 0 else 1) ≤ r.answersLeft := by
  obtain ⟨buffered, upcoming⟩ := r
  cases buffered with
  | cons b bs =>
    show answersLeft ⟨bs, upcoming⟩ + 1 ≤ answersLeft ⟨b :: bs, upcoming⟩
    simp only [answersLeft, size, List.length_cons]
    omega
  | nil =>
    induction upcoming with
    | nil => exact Nat.le_refl _
    | cons read reads ih =>
      cases read with
      | bytes bs =>
        cases bs with
        | nil =>
          show answersLeft ⟨[], reads⟩ + 0 ≤ answersLeft ⟨[], .bytes [] :: reads⟩
          simp only [answersLeft, size, Read.total, Read.size, List.length_cons, List.length_nil]
          omega
        | cons b bs =>
          show answersLeft ⟨bs, reads⟩ + 1 ≤ answersLeft ⟨[], .bytes (b :: bs) :: reads⟩
          simp only [answersLeft, size, Read.total, Read.size, List.length_cons, List.length_nil]
          omega
      | failure reason =>
        show answersLeft ⟨[], reads⟩ + 1 ≤ answersLeft ⟨[], .failure reason :: reads⟩
        simp only [answersLeft, size, Read.total, Read.size, List.length_cons, List.length_nil]
        omega
      | interrupted =>
        rw [event_interrupted]
        refine Nat.le_trans ih ?_
        simp only [answersLeft, size, Read.total, Read.size, List.length_cons, List.length_nil]
        omega

end Reader

/-- A reader, and whether it has reported the end of the input. -/
structure Feed where
  reader : Reader
  finished : Bool

namespace Feed

/-- A feed gives some events, and this is left of it. After the end is reported it gives nothing. -/
inductive Gives : Feed → List Event → Feed → Prop
  | refl (f : Feed) : Gives f [] f
  | step {r r' : Reader} {e : Event} {es : List Event} {f : Feed} :
      r.event = (e, r') → Gives ⟨r', e = .ended⟩ es f → Gives ⟨r, false⟩ (e :: es) f

variable {f f' f'' g : Feed} {e : Event} {es es' : List Event}

theorem Gives.single {r r' : Reader} (h : r.event = (e, r')) :
    Gives ⟨r, false⟩ [e] ⟨r', e = .ended⟩ :=
  .step h (.refl _)

theorem Gives.trans (h : Gives f es f') (h' : Gives f' es' f'') : Gives f (es ++ es') f'' := by
  induction h with
  | refl f => exact h'
  | step he _ ih => exact .step he (ih h')

theorem gives_cons_iff : Gives f (e :: es) f' ↔
    f.finished = false ∧ f.reader.event.1 = e ∧ Gives ⟨f.reader.event.2, e = .ended⟩ es f' := by
  constructor
  · intro h
    cases h with
    | step he hg => simp [he, hg]
  · rintro ⟨hf, he, hg⟩
    obtain ⟨r, finished⟩ := f
    cases hf
    exact .step (Prod.ext he rfl) hg

theorem gives_append_iff : Gives f (es ++ es') f'' ↔ ∃ f', Gives f es f' ∧ Gives f' es' f'' := by
  refine ⟨fun h => ?_, fun ⟨f', h, h'⟩ => h.trans h'⟩
  induction es generalizing f with
  | nil => exact ⟨f, .refl f, h⟩
  | cons e es ih =>
    obtain ⟨hf, he, hg⟩ := gives_cons_iff.1 h
    obtain ⟨f', h₁, h₂⟩ := ih hg
    exact ⟨f', gives_cons_iff.2 ⟨hf, he, h₁⟩, h₂⟩

theorem gives_nil_iff : Gives f [] f' ↔ f = f' := by
  constructor
  · intro h
    cases h
    rfl
  · rintro rfl
    exact .refl f

/-- The end is met exactly if it is reported. -/
theorem Gives.finished_eq (h : Gives f es f') :
    f'.finished = (f.finished || decide (.ended ∈ es)) := by
  induction h with
  | refl f => simp
  | @step r r' e es f _ _ ih => rw [ih]; by_cases he : e = .ended <;> simp [he, eq_comm]

/-- After the end nothing is given. -/
theorem Gives.eq_nil (h : Gives f es f') (hf : f.finished = true) : es = [] := by
  cases h with
  | refl => rfl
  | step => cases hf

/-! ## Uniqueness -/

/-- How many events a feed can give. -/
def size (f : Feed) : Nat := if f.finished then 0 else f.reader.answersLeft + 1

theorem Gives.size_le (h : Gives f es f') : f'.size + es.length ≤ f.size := by
  induction h with
  | refl f => exact Nat.le_refl _
  | @step r r' e es f he _ ih =>
    have hr := r.answersLeft_event
    rw [he] at hr
    have hs : size ⟨r', e = .ended⟩ + 1 ≤ size ⟨r, false⟩ := by
      by_cases hended : e = .ended
      · simp [size, hended]
      · simp only [hended, if_false] at hr
        simpa [size, hended] using hr
    rw [List.length_cons]
    omega

/-- Of two trails of events, one goes on where the other ends. -/
theorem Gives.total (h : Gives f es f') (h' : Gives f es' f'') :
    (∃ us, es' = es ++ us ∧ Gives f' us f'') ∨ ∃ us, es = es' ++ us ∧ Gives f'' us f' := by
  induction h generalizing es' with
  | refl f => exact .inl ⟨es', rfl, h'⟩
  | step he hg ih =>
    cases h' with
    | refl => exact .inr ⟨_, rfl, .step he hg⟩
    | step he' hg' =>
      rw [he] at he'
      cases he'
      rcases ih hg' with ⟨us, rfl, hu⟩ | ⟨us, rfl, hu⟩
      · exact .inl ⟨us, rfl, hu⟩
      · exact .inr ⟨us, rfl, hu⟩

theorem Gives.eq_nil_of_self (h : Gives f es f) : es = [] := by
  have := h.size_le
  exact List.eq_nil_of_length_eq_zero (by omega)

/-- **Only one row of events leads from a feed to another.** -/
theorem Gives.unique (h : Gives f es f') (h' : Gives f es' f') : es = es' := by
  rcases h.total h' with ⟨us, rfl, hu⟩ | ⟨us, rfl, hu⟩
  · rw [hu.eq_nil_of_self, List.append_nil]
  · rw [hu.eq_nil_of_self, List.append_nil]

/-! ## Feeds that cannot be told apart -/

/-- The same events are to come. -/
structure Alike (f g : Feed) : Prop where
  events : f.reader.events = g.reader.events
  finished : f.finished = g.finished

theorem Alike.gives (h : Alike f g) (hf : Gives f es f') : ∃ g', Gives g es g' ∧ Alike f' g' := by
  induction hf generalizing g with
  | refl f => exact ⟨g, .refl g, h⟩
  | @step r r' e es f he _ ih =>
    obtain ⟨hr, hr'⟩ := r.event_eq
    obtain ⟨hs, hs'⟩ := g.reader.event_eq
    rw [he, h.events] at hr hr'
    obtain ⟨g', hg, ha⟩ := @ih ⟨g.reader.event.2, e = .ended⟩ ⟨hr'.trans hs'.symm, rfl⟩
    exact ⟨g', gives_cons_iff.2 ⟨h.finished.symm, hs.trans hr.symm, hg⟩, ha⟩

end Feed

end Calculator
