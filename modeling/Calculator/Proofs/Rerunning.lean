import Calculator.Proofs.Composition
import Calculator.Proofs.ExactEvaluation

/-!
# Running the output

The values of a program are shown in the notation of programs: literals with semicolons between them
and a stop at the end. So what is shown can be run again, as the program that consists of these
literals. It gives itself, unless one of the values is negative, because no literal is.

**Theorem (`render_injective`).** What is shown determines the values.

**Theorem (`output_runs_to_itself`).** The output of a run is a program for itself exactly if no
value in it is negative, and otherwise it is refused at a `-`.
-/

namespace Calculator

/-! ## What is shown determines the values -/

/-- What is shown after a value that others follow, or none. -/
def shownAfter : List Value → List Char
  | [] => ['.']
  | v :: vs => ';' :: ' ' :: (v.text.toList ++ shownAfter vs)

theorem toList_render_cons (v : Value) (vs : List Value) :
    (render (v :: vs)).toList = v.text.toList ++ shownAfter vs := by
  induction vs generalizing v with
  | nil => simp [render, shownAfter]
  | cons w vs ih =>
    have hrender : render (v :: w :: vs) = v.text ++ "; " ++ render (w :: vs) := by
      simp [render, String.append_assoc]
    rw [hrender, String.toList_append, ih, shownAfter]
    simp

theorem isFigure_eq_false_of_head? (vs : List Value) :
    ∀ c ∈ (shownAfter vs).head?, Value.isFigure c = false := by
  intro c hc
  cases vs <;> cases hc <;> rfl

theorem shownAfter_injective : Function.Injective shownAfter := by
  intro vs
  induction vs with
  | nil =>
    rintro (_ | ⟨w, ws⟩) h
    · rfl
    · cases h
  | cons v vs ih =>
    rintro (_ | ⟨w, ws⟩) h
    · cases h
    · obtain ⟨rfl, hrest⟩ := Value.text_append_inj (isFigure_eq_false_of_head? vs)
        (isFigure_eq_false_of_head? ws) (List.cons.inj (List.cons.inj h).2).2
      rw [ih hrest]

/-- **What is shown determines the values.** -/
theorem render_injective : Function.Injective render := by
  have hnil (v : Value) (vs : List Value) : render [] ≠ render (v :: vs) := by
    intro h
    have htext := congrArg (fun text => text.toList.takeWhile Value.isFigure) h
    simp only [toList_render_cons, v.takeWhile_text (isFigure_eq_false_of_head? vs)] at htext
    exact v.toList_text_ne_nil htext.symm
  rintro (_ | ⟨v, vs⟩) (_ | ⟨w, ws⟩) h
  · rfl
  · exact absurd h (hnil w ws)
  · exact absurd h.symm (hnil v vs)
  · have hlist := congrArg String.toList h
    rw [toList_render_cons, toList_render_cons] at hlist
    obtain ⟨rfl, hrest⟩ := Value.text_append_inj (isFigure_eq_false_of_head? vs)
      (isFigure_eq_false_of_head? ws) hlist
    rw [shownAfter_injective hrest]

/-! ## Values as a program -/

/-- A literal as an expression. -/
def Value.literal (v : Value) : Expr := .single (.single (.number v))

/-- The program of some literals, of which there has to be one. -/
def Program.ofValues (v : Value) (vs : List Value) : Program :=
  .ofLinks v.literal (vs.map fun w => ((), w.literal))

namespace Program

variable (v : Value) (vs : List Value)

theorem tokens_ofValues :
    (ofValues v vs).tokens = .number v :: vs.flatMap fun w => [.semicolon, .number w] := by
  induction vs generalizing v with
  | nil => rfl
  | cons w vs ih =>
    show .number v :: .semicolon :: (ofValues w vs).tokens = _
    rw [ih]
    rfl

theorem text_ofValues : (ofValues v vs).text = render (v :: vs) := by
  refine String.ext ?_
  rw [Program.toList_text, tokens_ofValues, toList_render_cons, List.flatMap_cons,
    List.append_assoc]
  congr 1
  induction vs with
  | nil => rfl
  | cons w vs ih => simpa [Token.spelling, shownAfter] using ih

theorem eval_ofValues : (ofValues v vs).eval = .ok (v :: vs) := by
  induction vs generalizing v with
  | nil => rfl
  | cons w vs ih =>
    show (v.literal :: (ofValues w vs).items).mapM Expr.eval = _
    rw [List.mapM_cons]
    show Expr.eval v.literal >>= (fun u => (ofValues w vs).eval >>= fun us => .ok (u :: us)) = _
    rw [ih]
    rfl

theorem isNormal_ofValues : (ofValues v vs).IsNormal := by
  induction vs generalizing v with
  | nil => trivial
  | cons w vs ih => exact ⟨trivial, ih w⟩

theorem depth_ofValues : (ofValues v vs).depth = 0 := by
  induction vs generalizing v with
  | nil => rfl
  | cons w vs ih => exact Nat.max_eq_zero_iff.2 ⟨rfl, ih w⟩

theorem isNonneg_ofValues : (ofValues v vs).IsNonneg ↔ ∀ w ∈ v :: vs, 0 ≤ w.toInt := by
  simp [IsNonneg, tokens_ofValues]

/-- Within the limit on nesting, only a negative literal can be wrong. -/
theorem offence_of_depth_le {p : Program} (hd : p.depth ≤ maxNesting) (hn : ¬p.IsNonneg) :
    p.offence = some (.unexpected .minus) := by
  have hne : p.offence ≠ none := fun h => hn (offence_eq_none_iff.1 h).1
  obtain ⟨e, he⟩ := Option.ne_none_iff_exists'.1 hne
  obtain ⟨x, hx, hoffence⟩ := List.exists_of_findSome?_eq_some he
  change x.1.offence x.2 = some e at hoffence
  have hle : ¬maxNesting < x.2 := Nat.not_lt.2 (p.levels_le_iff.2 hd x hx)
  rw [Token.offence, if_neg hle] at hoffence
  split at hoffence
  · exact he.trans hoffence.symm
  · cases hoffence

end Program

/-! ## Running again -/

theorem interpret_of_parse_error {source : Reader} {e : Error} (h : parse source = .error e) :
    interpret source = .error e := by
  unfold parse at h
  unfold interpret run
  split at h
  · cases h
  · next e' c hw =>
    cases h
    rw [hw]

/-- What running the output comes to. -/
theorem interpretText_render (v : Value) (vs : List Value) : interpretText (render (v :: vs)) =
    if ∀ w ∈ v :: vs, 0 ≤ w.toInt then .ok (render (v :: vs))
    else .error (.parse (.unexpected .minus)) := by
  have hdepth : (Program.ofValues v vs).depth ≤ maxNesting := by
    rw [Program.depth_ofValues]
    exact Nat.zero_le _
  have hnorm := Program.norm_of_isNormal _ (Program.isNormal_ofValues v vs)
  have hparse := parse_text (.ofValues v vs)
  rw [hnorm, Program.text_ofValues] at hparse
  split
  · next hn =>
    rw [Program.offence_eq_none_iff.2 ⟨(Program.isNonneg_ofValues v vs).2 hn, hdepth⟩] at hparse
    rw [interpretText, interpret_of_parse hparse, Program.eval_ofValues]
    rfl
  · next hn =>
    rw [← Program.isNonneg_ofValues] at hn
    rw [Program.offence_of_depth_le hdepth hn] at hparse
    exact interpret_of_parse_error hparse

/-- A run that succeeds shows the values of its program, at least one. -/
theorem values_of_interpret {source : Reader} {out : String} (h : interpret source = .ok out) :
    ∃ p v vs, parse source = .ok p ∧ p.eval = .ok (v :: vs) ∧ out = render (v :: vs) := by
  cases hp : parse source with
  | error e =>
    rw [interpret_of_parse_error hp] at h
    cases h
  | ok p =>
    rw [interpret_of_parse hp] at h
    cases hv : p.eval with
    | error e =>
      rw [hv] at h
      cases h
    | ok vs =>
      rw [hv] at h
      cases h
      have hexact := ((computes_program p).of_ok hv).2
      cases vs with
      | nil => cases p <;> cases hexact
      | cons v vs => exact ⟨p, v, vs, rfl, hv, rfl⟩

/-- **The output is a faithful notation, and a program for itself where no value is negative.** What
is shown determines the values. Values that are not negative, at least one, are shown as a program
whose output is the same text again; with a negative value among them, that text is refused at a
`-`. So the output of any run that succeeds can be run to the same output exactly if no value in it
is negative. -/
theorem output_runs_to_itself :
    Function.Injective render ∧
    (∀ vs : List Value, vs ≠ [] → (∀ v ∈ vs, 0 ≤ v.toInt) →
      interpretText (render vs) = .ok (render vs)) ∧
    (∀ vs : List Value, (∃ v ∈ vs, v.toInt < 0) →
      interpretText (render vs) = .error (.parse (.unexpected .minus))) ∧
    ∀ source out, interpret source = .ok out → ∃ p vs, parse source = .ok p ∧ p.eval = .ok vs ∧
      out = render vs ∧ (interpretText out = .ok out ↔ ∀ v ∈ vs, 0 ≤ v.toInt) := by
  refine ⟨render_injective, fun vs hne hn => ?_, fun vs hneg => ?_, fun source out h => ?_⟩
  · obtain ⟨v, vs, rfl⟩ := List.exists_cons_of_ne_nil hne
    rw [interpretText_render, if_pos hn]
  · obtain ⟨w, hw, hlt⟩ := hneg
    obtain ⟨v, vs, rfl⟩ := List.exists_cons_of_ne_nil (List.ne_nil_of_mem hw)
    rw [interpretText_render, if_neg fun hn => Int.not_le.2 hlt (hn w hw)]
  · obtain ⟨p, v, vs, hp, hv, rfl⟩ := values_of_interpret h
    refine ⟨p, v :: vs, hp, hv, rfl, ?_⟩
    rw [interpretText_render]
    split
    · next hn => exact iff_of_true rfl hn
    · next hn => exact iff_of_false nofun hn

/-- The greatest value is read back, and the least one is refused at its `-`, although its digits
are too large for a literal. -/
theorem output_runs_to_itself_extremes :
    let greatest : Value := ⟨9223372036854775807, rfl⟩
    let least : Value := ⟨-9223372036854775808, rfl⟩
    render [⟨0, rfl⟩, greatest] = "0; 9223372036854775807." ∧
      interpretText "0; 9223372036854775807." = .ok "0; 9223372036854775807." ∧
      render [least, greatest] = "-9223372036854775808; 9223372036854775807." ∧
      interpretText "-9223372036854775808; 9223372036854775807." =
        .error (.parse (.unexpected .minus)) ∧
      interpret (.ofString "(7).") = .ok "7." ∧ interpretText "7." = .ok "7." := by
  intro greatest least
  obtain ⟨-, hagain, hrefused, houtput⟩ := output_runs_to_itself
  have hpos : render [⟨0, rfl⟩, greatest] = "0; 9223372036854775807." := by decide +kernel
  have hneg : render [least, greatest] = "-9223372036854775808; 9223372036854775807." := by
    decide +kernel
  have hrun : interpret (.ofString "(7).") = .ok "7." := by decide +kernel
  obtain ⟨p, vs, -, -, hvs, hiff⟩ := houtput _ _ hrun
  have hseven : vs = [⟨7, rfl⟩] := render_injective (hvs.symm.trans (by decide +kernel))
  refine ⟨hpos, hpos ▸ hagain _ (by simp) ?_, hneg, hneg ▸ hrefused _ ?_, hrun, hiff.2 ?_⟩
  · exact List.forall_mem_cons.2 ⟨by decide, List.forall_mem_singleton.2 (by decide)⟩
  · exact ⟨least, List.mem_cons_self, by decide⟩
  · rw [hseven]
    exact List.forall_mem_singleton.2 (by decide)

end Calculator
