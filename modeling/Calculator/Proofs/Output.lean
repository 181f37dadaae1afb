import Calculator.CommandLine
import Calculator.Proofs.CanonicalText
import Calculator.Proofs.RunLog

/-!
# What the command line prints

The same input can be run, run after its program is shown, or shown as tokens. The three modes are
different consumers of one input: the parser stops at the stop of the program, and the mode that
shows tokens goes on to the end or the first error. How the program reads its arguments is left
open: all that counts is which arguments ask for a mode.

**Theorem (`tree_mode_replays_run`).** The mode that shows the program prints it as one line before
all that a plain run prints, and that line is a program with the same run.

**Theorem (`token_mode_sees_parser_tokens`).** The mode that shows tokens prints what repeated calls
for a token give, and that begins with the tokens that the parser was given.
-/

namespace Calculator

/-! ## Lines -/

/-- The lines of a text, without the newlines that end them. -/
def linesOf (text : String) : List String :=
  (text.toList.splitOn '\n').dropLast.map String.ofList

theorem linesOf_append {line : String} (h : '\n' ∉ line.toList) (rest : String) :
    linesOf (line ++ "\n" ++ rest) = line :: linesOf rest := by
  have htext : (line ++ "\n" ++ rest).toList = line.toList ++ '\n' :: rest.toList := by simp
  have hsplit : (line.toList ++ '\n' :: rest.toList).splitOn '\n' =
      line.toList :: rest.toList.splitOn '\n' := by
    apply List.splitOnP_append_cons_of_forall_mem
    · intro c hc
      simpa using ne_of_mem_of_not_mem hc h
    · rfl
  have hne : rest.toList.splitOn '\n' ≠ [] := List.splitOnP_ne_nil _ _
  unfold linesOf
  rw [htext, hsplit, List.dropLast_cons_of_ne_nil hne, List.map_cons, String.ofList_toList]

/-- Lines that are printed one after another. -/
theorem linesOf_join {lines : List String} (h : ∀ line ∈ lines, '\n' ∉ line.toList) :
    linesOf (String.join (lines.map (· ++ "\n"))) = lines := by
  induction lines with
  | nil => rfl
  | cons line lines ih =>
    rw [List.forall_mem_cons] at h
    have hjoin : String.join ((line :: lines).map (· ++ "\n")) =
        line ++ "\n" ++ String.join (lines.map (· ++ "\n")) := by
      rw [List.map_cons, String.join_cons]
    rw [hjoin, linesOf_append h.1, ih h.2]

/-! ## Modes -/

section Modes

variable {source : Reader}

/-- Without a path, the standard input is run with the options that are given. -/
theorem executeBy_eq {arguments : ArgumentReader} {args : List String} {o : Options}
    (h : arguments args = .ok o) (hpath : o.path = none) (source : Reader) (files : Directory) :
    executeBy arguments args source files = o.execute source := by
  simp [executeBy, executeWith, h, hpath]

theorem evaluate_of_error {e : Error} (h : parse source = .error e) (o : Options) :
    o.evaluate source = .failure "" e.message := by
  rw [Options.evaluate, h]

/-- Only the program of an input counts. -/
theorem evaluate_congr {source' : Reader} (h : parse source = parse source') (o : Options) :
    o.evaluate source = o.evaluate source' := by
  unfold Options.evaluate
  rw [h]

/-- The program is printed first, also if it then has no values. -/
theorem evaluate_tree {p : Program} (h : parse source = .ok p) :
    Options.evaluate { tree := true } source =
      { Options.evaluate {} source with
        stdout := p.text ++ "\n" ++ (Options.evaluate {} source).stdout } := by
  cases hv : p.eval with
  | error e => simp [Options.evaluate, h, hv, Outcome.failure]
  | ok values => simp [Options.evaluate, h, hv, String.append_assoc]

end Modes

/-! ## The line of a program -/

theorem Program.newline_not_mem_text (p : Program) : '\n' ∉ p.text.toList := by
  rw [p.toList_text, List.mem_append, List.mem_flatMap, not_or]
  refine ⟨?_, by decide⟩
  rintro ⟨t, -, ht⟩
  cases t with
  | number v => exact Value.not_mem_text rfl (by decide) v ht
  | _ => exact absurd ht (by decide)

/-- The text of a program that was read is that program, whatever blanks come after it. -/
theorem parse_text_append {source : Reader} {p : Program} (h : parse source = .ok p)
    {ending : String} (hb : ∀ c ∈ ending.toList, isBlank c = true) :
    parse (.ofString (p.text ++ ending)) = .ok p := by
  obtain ⟨-, hs, hn, hp, hd⟩ := tree_of_parse h
  have hending : LexesTo ending.toList [] := by simpa using LexesTo.nil.blanks hb
  have hlex : LexesTo (p.text ++ ending).toList (p.tokens ++ [.stop]) := by
    rw [String.toList_append, ← List.append_nil (p.tokens ++ [Token.stop])]
    apply (lexesTo_text ⟨hn, hp, hd⟩ hs).append hending
    intro c hc
    exact not_isDigit_of_isBlank (hb c (List.mem_of_mem_head? hc))
  exact parse_of_tokens hp hd (tokens_of_lexesTo hlex ▸ List.prefix_refl _)

/-- **The mode that shows the program replays the run.** If the input is a program, its text is
printed as the first line, before exactly what a plain run prints, with the same errors and the same
exit code; and in both modes the run of that line, with its newline or any other blanks after it or
with none, is the run of the input. If the input is no program, both modes print nothing but the
error and fail. -/
theorem tree_mode_replays_run (arguments : ArgumentReader) (hnone : arguments [] = .ok {})
    (hast : arguments ["-a"] = .ok { tree := true }) (source : Reader) (files : Directory) :
    let tree := executeBy arguments ["-a"] source files
    let plain := executeBy arguments [] source files
    (∀ p, parse source = .ok p →
      tree = { plain with stdout := p.text ++ "\n" ++ plain.stdout } ∧
      (linesOf tree.stdout).head? = some p.text ∧
      ∀ ending : String, (∀ c ∈ ending.toList, isBlank c = true) → ∀ args ∈ [[], ["-a"]],
        executeBy arguments args (.ofString (p.text ++ ending)) files =
          executeBy arguments args source files) ∧
    ∀ e, parse source = .error e → tree = plain ∧ plain.stdout = "" ∧ plain.exit = 1 := by
  intro tree plain
  have htree : tree = Options.evaluate { tree := true } source := executeBy_eq hast rfl source files
  have hplain : plain = Options.evaluate {} source := executeBy_eq hnone rfl source files
  refine ⟨fun p hp => ?_, fun e he => ?_⟩
  · have hshown : tree = { plain with stdout := p.text ++ "\n" ++ plain.stdout } := by
      rw [htree, hplain, evaluate_tree hp]
    refine ⟨hshown, ?_, fun ending hb args hargs => ?_⟩
    · rw [hshown, linesOf_append p.newline_not_mem_text]
      rfl
    · have hparse := (parse_text_append hp hb).trans hp.symm
      simp only [List.mem_cons, List.not_mem_nil, or_false] at hargs
      rcases hargs with rfl | rfl
      · rw [executeBy_eq hnone rfl, executeBy_eq hnone rfl]
        exact evaluate_congr hparse {}
      · rw [executeBy_eq hast rfl, executeBy_eq hast rfl]
        exact evaluate_congr hparse { tree := true }
  · rw [htree, hplain, evaluate_of_error he, evaluate_of_error he]
    exact ⟨rfl, rfl, rfl⟩

/-- A division by zero after the program is shown, with blanks in odd places and text after the
stop, and an input that ends too early. -/
theorem tree_mode_replays_run_division :
    let source : Reader := .ofString "1\n/ 00. ("
    let p : Program := .single (.single (.cons (.number ⟨1, rfl⟩) .div
      (.single (.number ⟨0, rfl⟩))))
    let broken : Reader := .ofString "1/"
    parse source = .ok p ∧ p.text = "1 / 0." ∧
      (execute ["-a"] source []).stdout = "1 / 0.\n" ∧ (execute ["-a"] source []).exit = 1 ∧
      (linesOf (execute ["-a"] source []).stdout).head? = some "1 / 0." ∧
      execute ["-a"] (.ofString ("1 / 0." ++ "\n")) [] = execute ["-a"] source [] ∧
      execute ["-a"] broken [] = execute [] broken [] ∧ (execute [] broken []).exit = 1 := by
  intro source p broken
  have h : parse source = .ok p := by decide +kernel
  have htext : p.text = "1 / 0." := by decide +kernel
  have hbroken : parse broken = .error (.parse (.unexpected .eof)) := by decide +kernel
  have hnewline : ∀ c ∈ "\n".toList, isBlank c = true := List.forall_mem_singleton.2 rfl
  obtain ⟨-, hline, hagain⟩ := (tree_mode_replays_run Options.reader rfl rfl source []).1 p h
  obtain ⟨hsame, -, hexit⟩ := (tree_mode_replays_run Options.reader rfl rfl broken []).2 _ hbroken
  rw [htext] at hline hagain
  refine ⟨h, htext, by decide +kernel, by decide +kernel, hline, ?_, hsame, hexit⟩
  exact hagain "\n" hnewline ["-a"] (by simp)

/-! ## The lines of tokens -/

theorem Token.newline_not_mem_label (t : Token) : '\n' ∉ t.label.toList := by
  cases t with
  | number v =>
    have hv := Value.not_mem_text (c := '\n') rfl (by decide) v
    simp [Token.label, hv]
  | _ => decide

theorem tokenLines_eq (ts : List Token) :
    tokenLines ts = String.join ((ts.map Token.label).map (· ++ "\n")) := by
  have hfold (before : String) : ts.foldl (fun before t => before ++ t.label ++ "\n") before =
      before ++ String.join ((ts.map Token.label).map (· ++ "\n")) := by
    induction ts generalizing before with
    | nil => simp
    | cons t ts ih =>
      rw [List.foldl_cons, ih, List.map_cons, List.map_cons, String.join_cons]
      simp only [String.append_assoc]
  rw [tokenLines, hfold, String.empty_append]

theorem linesOf_tokenLines (ts : List Token) : linesOf (tokenLines ts) = ts.map Token.label := by
  rw [tokenLines_eq]
  apply linesOf_join
  intro line hline
  obtain ⟨t, -, rfl⟩ := List.mem_map.1 hline
  exact t.newline_not_mem_label

namespace Lexer

variable {l l' : Lexer} {ts : List Token} {e : LexicalError}

/-- The tokens before the first error or the end are what repeated calls give. -/
theorem calls_drain (l : Lexer) : (l.calls (List.replicate (l.drain.1.length + 1) .token)).1 =
    l.drain.1.map (fun t => some (.ok t)) ++ [some (l.drain.2.elim (.ok .eof) .error)] := by
  induction l using next_induction with
  | error l e l' ht =>
    rw [drain_of_error ht]
    exact congrArg Prod.fst (calls_token_of_error ht)
  | eof l l' ht =>
    rw [drain_of_eof ht]
    exact congrArg Prod.fst (calls_token_of_ok ht)
  | token l t l' ht he ih =>
    rw [drain_of_token ht he, List.length_cons, List.replicate_succ, calls, call_of_ok ht, ih]
    rfl

theorem eof_not_mem_drain (l : Lexer) : .eof ∉ l.drain.1 := by
  induction l using next_induction with
  | error l e l' ht => simp [drain_of_error ht]
  | eof l l' ht => simp [drain_of_eof ht]
  | token l t l' ht he ih => simp [drain_of_token ht he, Ne.symm he, ih]

/-- Calls that end with an error give all tokens before the first one. -/
theorem drain_of_calls (h : l.calls (List.replicate (ts.length + 1) .token) =
    (ts.map (fun t => some (.ok t)) ++ [some (.error e)], l')) (ht : .eof ∉ ts) :
    l.drain = (ts, some e) := by
  induction ts generalizing l with
  | nil =>
    cases hn : l.next with
    | ok t l₁ =>
      cases h.symm.trans (calls_token_of_ok hn)
    | error e' l₁ =>
      cases h.symm.trans (calls_token_of_error hn)
      exact drain_of_error hn
  | cons t ts ih =>
    rw [List.mem_cons, not_or] at ht
    obtain ⟨l₁, hn, hcalls⟩ := calls_cons h
    rw [drain_of_token hn (Ne.symm ht.1), ih hcalls ht.2]

/-- Where the tokens end with the end of the input, no call fails, however many are made. -/
theorem error_not_mem_calls (h : l.drain.2 = none) (n : Nat) :
    some (.error e) ∉ (l.calls (List.replicate n .token)).1 := by
  induction n generalizing l with
  | zero => simp [calls]
  | succ n ih =>
    cases hn : l.next with
    | error e' l₁ =>
      rw [drain_of_error hn] at h
      cases h
    | ok t l₁ =>
      have h₁ : l₁.drain.2 = none := by
        by_cases ht : t = .eof
        · subst ht
          obtain ⟨hf, hp⟩ := next_eq_eof hn
          rw [drain_of_eof (next_of_finished hf hp)]
        · rwa [drain_of_token hn ht] at h
      rw [List.replicate_succ, calls, call_of_ok hn]
      simp [Call.answer, ih h₁]

end Lexer

/-! ## Tokens that are shown -/

section Dump

variable {source : Reader} {e : LexicalError}

theorem dump_of_fault_eq_none (h : source.fault = none) :
    Options.dump source = ⟨0, tokenLines source.tokens, ""⟩ := by
  have hdrain : Lexer.drain { reader := source } = (source.tokens, none) := Prod.ext rfl h
  rw [Options.dump, hdrain]

theorem dump_of_fault_eq_some (h : source.fault = some e) :
    Options.dump source = .failure (tokenLines source.tokens) (Error.lexical e).message := by
  have hdrain : Lexer.drain { reader := source } = (source.tokens, some e) := Prod.ext rfl h
  rw [Options.dump, hdrain]

theorem stdout_dump (source : Reader) :
    (Options.dump source).stdout = tokenLines source.tokens := by
  cases h : source.fault with
  | none => rw [dump_of_fault_eq_none h]
  | some e =>
    rw [dump_of_fault_eq_some h]
    rfl

theorem exit_dump_eq_zero_iff : (Options.dump source).exit = 0 ↔ source.fault = none := by
  cases h : source.fault with
  | none => simp [dump_of_fault_eq_none h]
  | some e => simp [dump_of_fault_eq_some h, Outcome.failure]

/-- The tokens before the error at which the parser fails are all that are shown. -/
theorem drain_of_requests {passed : List Token} (h : source.Requests passed (.error e)) :
    source.tokens = passed ∧ source.fault = some e := by
  have hdrain := Lexer.drain_of_calls h.calls h.eof_not_mem
  exact ⟨congrArg Prod.fst hdrain, congrArg Prod.snd hdrain⟩

/-- There is no error in the whole input exactly if the tokens end with its end. -/
theorem Reader.fault_eq_none_iff : source.fault = none ↔
    ∀ n e, some (.error e) ∉ (Lexer.calls { reader := source } (List.replicate n .token)).1 := by
  refine ⟨fun h n e => Lexer.error_not_mem_calls h n, fun h => ?_⟩
  by_contra hne
  obtain ⟨e, he⟩ := Option.ne_none_iff_exists'.1 hne
  have hfault : (Lexer.drain { reader := source }).2 = some e := he
  have hcalls := Lexer.calls_drain { reader := source }
  rw [hfault] at hcalls
  apply h _ e
  rw [hcalls]
  exact List.mem_append_right _ (List.mem_singleton_self _)

end Dump

/-- **The mode that shows tokens sees the tokens of the parser.** It prints a line for each token
before the first error or the end of the input, as calls for tokens give them, and succeeds exactly
if no call ever fails. If a plain run fails with an error of the lexer, this mode fails with the
same error, and has printed exactly the tokens that the parser was given. If a plain run reads a
program, the lines begin with the tokens of the program and its stop, whatever becomes of the
rest. -/
theorem token_mode_sees_parser_tokens (arguments : ArgumentReader) (hnone : arguments [] = .ok {})
    (htokens : arguments ["-t"] = .ok { tokens := true }) (source : Reader) (files : Directory) :
    let dump := executeBy arguments ["-t"] source files
    (∃ (ts : List Token) (last : Except LexicalError Token),
      (Lexer.calls { reader := source } (List.replicate (ts.length + 1) .token)).1 =
        ts.map (fun t => some (.ok t)) ++ [some last] ∧ .eof ∉ ts ∧
      (last = .ok .eof ∨ ∃ e, last = .error e) ∧
      dump.stdout = String.join ((ts.map Token.label).map (· ++ "\n")) ∧
      linesOf dump.stdout = ts.map Token.label) ∧
    (dump.exit = 0 ↔
      ∀ n e, some (.error e) ∉ (Lexer.calls { reader := source } (List.replicate n .token)).1) ∧
    (∀ e, parse source = .error (.lexical e) →
      dump.exit = 1 ∧ dump.stderr = (executeBy arguments [] source files).stderr ∧
      ∃ passed, source.Requests passed (.error e) ∧
        linesOf dump.stdout = passed.map Token.label) ∧
    ∀ p, parse source = .ok p →
      (p.tokens ++ [Token.stop]).map Token.label <+: linesOf dump.stdout := by
  intro dump
  have hdump : dump = Options.dump source := executeBy_eq htokens rfl source files
  have hstdout : dump.stdout = tokenLines source.tokens := by rw [hdump, stdout_dump]
  have hlines : linesOf dump.stdout = source.tokens.map Token.label := by
    rw [hstdout, linesOf_tokenLines]
  refine ⟨?_, ?_, fun e he => ?_, fun p hp => ?_⟩
  · refine ⟨source.tokens, _, Lexer.calls_drain _, Lexer.eof_not_mem_drain _, ?_,
      hstdout.trans (tokenLines_eq _), hlines⟩
    cases (Lexer.drain { reader := source }).2 with
    | none => exact .inl rfl
    | some e => exact .inr ⟨e, rfl⟩
  · rw [hdump, exit_dump_eq_zero_iff, Reader.fault_eq_none_iff]
  · obtain ⟨passed, last, hr, -⟩ := log_of_requests source
    obtain rfl := (hr.error_iff e).2 he
    obtain ⟨hpassed, hfault⟩ := drain_of_requests hr
    refine ⟨?_, ?_, passed, hr, hpassed ▸ hlines⟩
    · rw [hdump, dump_of_fault_eq_some hfault]
      rfl
    · have hplain : executeBy arguments [] source files = Options.evaluate {} source :=
        executeBy_eq hnone rfl source files
      rw [hdump, dump_of_fault_eq_some hfault, hplain, evaluate_of_error he]
      rfl
  · rw [hlines]
    exact (tree_of_parse hp).1.map Token.label

/-- A read that fails within a program, and one that fails after its stop. -/
theorem token_mode_sees_parser_tokens_failure :
    let broken : Reader := ⟨[], [.bytes [0x31, 0x2b], .interrupted, .failure "gone"]⟩
    let source : Reader := ⟨[], [.bytes [0x31, 0x2e, 0x29], .failure "gone"]⟩
    let p : Program := .single (.single (.single (.number ⟨1, rfl⟩)))
    parse broken = .error (.lexical (.readFailure "gone")) ∧
      (execute ["-t"] broken []).stderr = (execute [] broken []).stderr ∧
      (∃ passed, broken.Requests passed (.error (.readFailure "gone")) ∧
        linesOf (execute ["-t"] broken []).stdout = passed.map Token.label) ∧
      parse source = .ok p ∧ (execute ["-t"] source []).exit = 1 ∧
      (p.tokens ++ [Token.stop]).map Token.label <+: linesOf (execute ["-t"] source []).stdout := by
  intro broken source p
  have hbroken : parse broken = .error (.lexical (.readFailure "gone")) := by decide +kernel
  have h : parse source = .ok p := by decide +kernel
  obtain ⟨-, -, hfails, -⟩ := token_mode_sees_parser_tokens Options.reader rfl rfl broken []
  obtain ⟨-, -, -, hreads⟩ := token_mode_sees_parser_tokens Options.reader rfl rfl source []
  obtain ⟨-, hstderr, hpassed⟩ := hfails _ hbroken
  exact ⟨hbroken, hstderr, hpassed, h, by decide +kernel, hreads p h⟩

end Calculator
