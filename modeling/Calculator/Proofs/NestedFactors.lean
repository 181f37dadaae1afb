import Calculator.Proofs.Reparsing
import Mathlib.Data.List.Chain

/-!
# Factors nested in one another

The limit on nesting counts parentheses, bars and carets. Whatever walks a tree goes further: from a
power into its base, which costs the parser nothing. But no base is a power in a tree that was read,
so at most every other step is of that kind.

**Theorem (`Factor.Holds.fits`).** One step down keeps a tree normal. It goes one level deeper or
leads from a power to what is not a power.

**Theorem (`nested_factors_bounded`).** So the factors that are nested in one another in a tree that
was read are at most twice as many as the limit, and one more; and there may be that many.
-/

namespace Calculator

/-! ## One step down -/

/-- The second factor lies right inside the first: in its parentheses, between its bars, or as its
base or exponent. The links of a chain are no steps. -/
inductive Factor.Holds : Factor → Factor → Prop
  | group {e : Expr} {t : Term} {f : Factor} (ht : t ∈ e.items) (hf : f ∈ t.items) :
    Holds (.group e) f
  | bars {e : Expr} {t : Term} {f : Factor} (ht : t ∈ e.items) (hf : f ∈ t.items) :
    Holds (.bars e) f
  | base {b p : Factor} : Holds (.power b p) b
  | exponent {b p : Factor} : Holds (.power b p) p

/-- The factors of a program, however deep. -/
inductive Program.Contains (p : Program) : Factor → Prop
  | top {e : Expr} {t : Term} {f : Factor} (he : e ∈ p.items) (ht : t ∈ e.items)
    (hf : f ∈ t.items) : Contains p f
  | inside {f g : Factor} (hf : Contains p f) (h : f.Holds g) : Contains p g

/-- Factors of a program, each right inside the one before it. -/
def Program.IsPath (p : Program) (path : List Factor) : Prop :=
  path.IsChain Factor.Holds ∧ ∀ f ∈ path, p.Contains f

/-! ## Trees of a given depth -/

/-- A chain is normal and not too deep if its items are, whatever that means for them. -/
theorem Chain.fits_iff {ο α : Type} {normal : Chain ο α → Prop} {normalItem : α → Prop}
    {depth : Chain ο α → Nat} {depthItem : α → Nat} {n : Nat}
    (hsingle : ∀ a, normal (.single a) = normalItem a ∧ depth (.single a) = depthItem a)
    (hcons : ∀ a o rest, normal (.cons a o rest) = (normalItem a ∧ normal rest) ∧
      depth (.cons a o rest) = max (depthItem a) (depth rest)) (c : Chain ο α) :
    normal c ∧ depth c ≤ n ↔ ∀ a ∈ c.items, normalItem a ∧ depthItem a ≤ n := by
  induction c with
  | single a => rw [(hsingle a).1, (hsingle a).2, Chain.items, List.forall_mem_singleton]
  | cons a o rest ih =>
    obtain ⟨hnormal, hdepth⟩ := hcons a o rest
    rw [hnormal, hdepth, Nat.max_le, and_and_and_comm, ih, Chain.items, List.forall_mem_cons]

theorem Term.fits_iff {n : Nat} (t : Term) :
    t.IsNormal ∧ t.depth ≤ n ↔ ∀ f ∈ t.items, f.IsNormal ∧ f.depth ≤ n :=
  Chain.fits_iff (fun _ => ⟨rfl, rfl⟩) (fun _ _ _ => ⟨rfl, rfl⟩) t

theorem Expr.fits_iff {n : Nat} (e : Expr) :
    e.IsNormal ∧ e.depth ≤ n ↔ ∀ t ∈ e.items, Term.IsNormal t ∧ Term.depth t ≤ n :=
  Chain.fits_iff (fun _ => ⟨rfl, rfl⟩) (fun _ _ _ => ⟨rfl, rfl⟩) e

theorem Program.fits_iff {n : Nat} (p : Program) :
    p.IsNormal ∧ p.depth ≤ n ↔ ∀ e ∈ p.items, Expr.IsNormal e ∧ Expr.depth e ≤ n :=
  Chain.fits_iff (fun _ => ⟨rfl, rfl⟩) (fun _ _ _ => ⟨rfl, rfl⟩) p

theorem Expr.fits_of_mem {n : Nat} {e : Expr} {t : Term} {f : Factor}
    (he : e.IsNormal ∧ e.depth ≤ n) (ht : t ∈ e.items) (hf : f ∈ t.items) :
    f.IsNormal ∧ f.depth ≤ n :=
  t.fits_iff.1 (e.fits_iff.1 he t ht) f hf

namespace Factor

variable {f g : Factor}

theorem depth_pos_of_isPower (h : f.isPower = true) : 0 < f.depth := by
  cases f with
  | power b p => exact Nat.lt_of_lt_of_le (Nat.succ_pos _) (Nat.le_max_right _ _)
  | number | group | bars => cases h

/-- **What a step down does.** It goes one level deeper, or from a power to its base, which is none
and may lie as deep. -/
theorem Holds.fits (h : f.Holds g) (hf : f.IsNormal) : g.IsNormal ∧
    (g.depth < f.depth ∨ g.depth ≤ f.depth ∧ f.isPower = true ∧ g.isPower = false) := by
  cases h with
  | group ht hg =>
    obtain ⟨hn, hd⟩ := Expr.fits_of_mem ⟨hf, Nat.le_refl _⟩ ht hg
    exact ⟨hn, .inl (Nat.lt_succ_of_le hd)⟩
  | bars ht hg =>
    obtain ⟨hn, hd⟩ := Expr.fits_of_mem ⟨hf, Nat.le_refl _⟩ ht hg
    exact ⟨hn, .inl (Nat.lt_succ_of_le hd)⟩
  | base => exact ⟨hf.2.1, .inr ⟨Nat.le_max_left _ _, rfl, hf.1⟩⟩
  | exponent => exact ⟨hf.2.2, .inl (Nat.le_max_right _ _)⟩

/-! ## Paths -/

/-- How many factors a path from here may have: two for each level, and one more from a power. -/
def reach (f : Factor) : Nat := max 1 (2 * f.depth) + f.isPower.toNat

theorem reach_le {n : Nat} (h : f.depth ≤ n) : f.reach ≤ 2 * n + 1 := by
  cases hp : f.isPower with
  | false =>
    rw [reach, hp, Bool.toNat_false]
    omega
  | true =>
    have := depth_pos_of_isPower hp
    rw [reach, hp, Bool.toNat_true]
    omega

/-- A step down leaves less to go. -/
theorem Holds.reach_lt (h : f.Holds g) (hf : f.IsNormal) : g.reach < f.reach := by
  obtain ⟨-, hd | ⟨hd, hp, hp'⟩⟩ := h.fits hf
  · have hg := reach_le (Nat.le_refl g.depth)
    have hle : max 1 (2 * f.depth) ≤ f.reach := Nat.le_add_right _ _
    omega
  · rw [reach, reach, hp, hp', Bool.toNat_false, Bool.toNat_true]
    omega

theorem length_le_reach {path : List Factor} (hpath : (f :: path).IsChain Holds)
    (hf : f.IsNormal) : (f :: path).length ≤ f.reach := by
  induction path generalizing f with
  | nil => exact Nat.le_trans (Nat.le_max_left _ _) (Nat.le_add_right _ _)
  | cons g path ih =>
    obtain ⟨hstep, hrest⟩ := List.isChain_cons_cons.1 hpath
    have hlength := ih hrest (hstep.fits hf).1
    have hlt := hstep.reach_lt hf
    rw [List.length_cons]
    omega

end Factor

theorem Program.Contains.fits {p : Program} {f : Factor} (h : p.Contains f) (hp : p.IsNormal) :
    f.IsNormal ∧ f.depth ≤ p.depth := by
  induction h with
  | top he ht hf =>
    exact Expr.fits_of_mem (p.fits_iff.1 ⟨hp, Nat.le_refl _⟩ _ he) ht hf
  | inside _ hstep ih =>
    obtain ⟨hn, hd⟩ := hstep.fits ih.1
    exact ⟨hn, by omega⟩

/-- **Two factors for each level and one more**: no path through a normal tree is longer. -/
theorem Program.IsPath.length_le {p : Program} {path : List Factor} (h : p.IsPath path)
    (hp : p.IsNormal) : path.length ≤ 2 * p.depth + 1 := by
  obtain ⟨hchain, hcontains⟩ := h
  cases path with
  | nil => exact Nat.zero_le _
  | cons f path =>
    obtain ⟨hn, hd⟩ := (hcontains f List.mem_cons_self).fits hp
    exact Nat.le_trans (Factor.length_le_reach hchain hn) (Factor.reach_le hd)

theorem Program.isPath_cons {p : Program} {f : Factor} {path : List Factor} (hf : p.Contains f)
    (hchain : (f :: path).IsChain Factor.Holds) : p.IsPath (f :: path) := by
  refine ⟨hchain, ?_⟩
  induction path generalizing f with
  | nil => exact List.forall_mem_singleton.2 hf
  | cons g path ih =>
    obtain ⟨hstep, hrest⟩ := List.isChain_cons_cons.1 hchain
    exact List.forall_mem_cons.2 ⟨hf, ih (hf.inside hstep) hrest⟩

/-! ## The longest paths -/

namespace Factor

/-- A literal at the bottom, and on each rung a power whose base is the rung below, in
parentheses. -/
def ladder : Nat → Factor
  | 0 => .number ⟨1, rfl⟩
  | k + 1 => .power (.group (.single (.single (ladder k)))) (.number ⟨1, rfl⟩)

/-- The way down a ladder, after its top. -/
def rungs : Nat → List Factor
  | 0 => []
  | k + 1 => .group (.single (.single (ladder k))) :: ladder k :: rungs k

theorem depth_ladder (k : Nat) : (ladder k).depth = k := by
  induction k with
  | zero => rfl
  | succ k ih =>
    show max ((ladder k).depth + 1) 1 = k + 1
    omega

theorem isNormal_ladder (k : Nat) : (ladder k).IsNormal := by
  induction k with
  | zero => trivial
  | succ k ih => exact ⟨rfl, ih, trivial⟩

theorem nonneg_of_mem_ladder {v : Value} (k : Nat) (h : .number v ∈ (ladder k).tokens) :
    0 ≤ v.toInt := by
  induction k with
  | zero =>
    cases List.mem_singleton.1 h
    decide
  | succ k ih =>
    simp only [ladder, tokens, Expr.tokens, Term.tokens, List.mem_append, List.mem_cons,
      reduceCtorEq, Token.number.injEq, false_or, or_false, List.not_mem_nil] at h
    rcases h with h | rfl
    · exact ih h
    · decide

theorem isChain_rungs (k : Nat) : (ladder k :: rungs k).IsChain Holds := by
  induction k with
  | zero => exact .singleton _
  | succ k ih =>
    refine .cons_cons .base (.cons_cons (.group (List.mem_singleton.2 rfl) ?_) ih)
    exact List.mem_singleton.2 rfl

theorem length_rungs (k : Nat) : (rungs k).length = 2 * k := by
  induction k with
  | zero => rfl
  | succ k ih => rw [rungs, List.length_cons, List.length_cons, ih]; omega

end Factor

/-- **The nesting of factors in a tree that was read is bounded.** Whatever the source, no more than
513 factors of its tree are nested in one another, however they follow from parentheses, bars, bases
and exponents. Some source has a tree with that many. -/
theorem nested_factors_bounded :
    2 * maxNesting + 1 = 513 ∧
    (∀ source p, parse source = .ok p →
      ∀ path, p.IsPath path → path.length ≤ 2 * maxNesting + 1) ∧
    ∃ source p path, parse source = .ok p ∧ p.IsPath path ∧
      path.length = 2 * maxNesting + 1 := by
  refine ⟨rfl, fun source p h path hpath => ?_, ?_⟩
  · obtain ⟨-, -, -, hnormal, hdepth⟩ := tree_of_parse h
    have hlength := hpath.length_le hnormal
    omega
  · let p : Program := .single (.single (.single (Factor.ladder maxNesting)))
    refine ⟨.ofString p.text, p, Factor.ladder maxNesting :: Factor.rungs maxNesting, ?_, ?_, ?_⟩
    · refine parse_text_eq_ok_iff.2 ⟨fun v hv => Factor.nonneg_of_mem_ladder _ hv, ?_, ?_⟩
      · exact Factor.isNormal_ladder maxNesting
      · exact Nat.le_of_eq (Factor.depth_ladder maxNesting)
    · refine Program.isPath_cons ?_ (Factor.isChain_rungs maxNesting)
      exact .top (List.mem_singleton.2 rfl) (List.mem_singleton.2 rfl) (List.mem_singleton.2 rfl)
    · rw [List.length_cons, Factor.length_rungs]

/-- Bars around a power whose base is in parentheses, with a sum inside them. -/
theorem nested_factors_bounded_bars :
    let seven : Factor := .number ⟨7, rfl⟩
    let sum : Expr := .cons (.single (.number ⟨1, rfl⟩)) .add (.single (.single seven))
    let power : Factor := .power (.group sum) (.number ⟨2, rfl⟩)
    let p : Program := .single (.single (.single (.bars (.single (.single power)))))
    parse (.ofString "|(1 + 7)^2|.") = .ok p ∧
      p.IsPath [.bars (.single (.single power)), power, .group sum, seven] ∧
      [Factor.bars (.single (.single power)), power, .group sum, seven].length ≤
        2 * maxNesting + 1 := by
  intro seven sum power p
  have hparse : parse (.ofString "|(1 + 7)^2|.") = .ok p := by decide +kernel
  have hpath : p.IsPath [.bars (.single (.single power)), power, .group sum, seven] := by
    refine Program.isPath_cons (.top List.mem_cons_self List.mem_cons_self List.mem_cons_self) ?_
    refine .cons_cons (.bars List.mem_cons_self List.mem_cons_self) (.cons_cons .base ?_)
    refine .cons_cons (.group (t := .single seven) ?_ List.mem_cons_self) (.singleton _)
    exact List.mem_cons_of_mem _ List.mem_cons_self
  exact ⟨hparse, hpath, nested_factors_bounded.2.1 _ p hparse _ hpath⟩

end Calculator
