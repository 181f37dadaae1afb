import Calculator.Proofs.Spelling
import Calculator.Tree.Outline

/-!
# Reading an outline

The outline of a tree is one line of nested records, pairs and lists. Each part of it ends where its
own text says, whatever comes after: a record with its brace, a list with its bracket, and a literal
with the parenthesis that no literal holds. So the parts can be read off one after another, and no
two trees have the same outline. Texts are different: they do not show how powers are nested.

**Theorem (`Factor.readsBack`).** Where the outline of a factor stands, it is the outline of that
factor only, and what comes after it is determined.

**Theorem (`outline_identifies_tree`).** Two programs with the same outline are the same.

The three kinds of chains are shown in one way: the first item, and then the list of the links. One
argument about lists serves them all.
-/

namespace Calculator

/-! ## Texts that can be read back -/

section Writing

variable {α β : Type}

/-- Wherever the text of `a` stands, nothing else has a text there, and what comes after it is
determined. -/
def ReadsBack (write : α → List Char) (a : α) : Prop :=
  ∀ ⦃b : α⦄ ⦃r r' : List Char⦄, write a ++ r = write b ++ r' → a = b ∧ r = r'

theorem ReadsBack.of_injective {γ : Type} {write : α → List Char} {f : γ → α} {a : γ}
    (h : ReadsBack write (f a)) (hf : Function.Injective f) :
    ReadsBack (fun x => write (f x)) a := by
  intro b r r' hr
  obtain ⟨heq, hrest⟩ := h hr
  exact ⟨hf heq, hrest⟩

/-- The rest of a list, after one of its entries. -/
def listedMore (entry : β → List Char) : List β → List Char
  | [] => [']']
  | x :: xs => ',' :: ' ' :: (entry x ++ listedMore entry xs)

/-- A list in brackets. -/
def listed (entry : β → List Char) : List β → List Char
  | [] => ['[', ']']
  | x :: xs => '[' :: (entry x ++ listedMore entry xs)

variable {entry : β → List Char} {xs : List β}

theorem readsBack_listedMore (h : ∀ x ∈ xs, ReadsBack entry x) :
    ReadsBack (listedMore entry) xs := by
  induction xs with
  | nil =>
    intro ys r r' hr
    cases ys with
    | nil => exact ⟨rfl, (List.cons.inj hr).2⟩
    | cons y ys => cases (List.cons.inj hr).1
  | cons x xs ih =>
    rw [List.forall_mem_cons] at h
    intro ys r r' hr
    cases ys with
    | nil => cases (List.cons.inj hr).1
    | cons y ys =>
      simp only [listedMore, List.cons_append, List.append_assoc, List.cons.injEq, true_and] at hr
      obtain ⟨rfl, hmore⟩ := h.1 hr
      obtain ⟨rfl, hrest⟩ := ih h.2 hmore
      exact ⟨rfl, hrest⟩

/-- **A list can be read back if its entries can**, and none of them looks like the end. -/
theorem readsBack_listed (h : ∀ x ∈ xs, ReadsBack entry x)
    (hends : ∀ x r r', entry x ++ r ≠ ']' :: r') : ReadsBack (listed entry) xs := by
  intro ys r r' hr
  cases xs with
  | nil =>
    cases ys with
    | nil => exact ⟨rfl, List.append_cancel_left hr⟩
    | cons y ys =>
      simp only [listed, List.cons_append, List.append_assoc, List.cons.injEq, true_and] at hr
      exact absurd hr.symm (hends y _ _)
  | cons x xs =>
    rw [List.forall_mem_cons] at h
    cases ys with
    | nil =>
      simp only [listed, List.cons_append, List.append_assoc, List.cons.injEq, true_and] at hr
      exact absurd hr (hends x _ _)
    | cons y ys =>
      simp only [listed, List.cons_append, List.append_assoc, List.cons.injEq, true_and] at hr
      obtain ⟨rfl, hmore⟩ := h.1 hr
      obtain ⟨rfl, hrest⟩ := readsBack_listedMore h.2 hmore
      exact ⟨rfl, hrest⟩

end Writing

/-! ## Chains -/

namespace Chain

variable {ο α : Type}

/-- A chain as a record: its first item, and a list with an entry for each link. -/
def shown (opening : List Char) (item : α → List Char) (entry : ο × α → List Char)
    (c : Chain ο α) : List Char :=
  opening ++ (item c.head ++ (", rest: ".toList ++ (listed entry c.links ++ [' ', '\x7d'])))

/-- A link as a pair. -/
def pair (label : ο → List Char) (item : α → List Char) (link : ο × α) : List Char :=
  '(' :: (label link.1 ++ ',' :: ' ' :: (item link.2 ++ [')']))

variable {opening : List Char} {label : ο → List Char} {item : α → List Char}
  {entry : ο × α → List Char} {c : Chain ο α}

theorem head_mem_items (c : Chain ο α) : c.head ∈ c.items := by
  cases c <;> simp [head, items]

theorem snd_mem_items {link : ο × α} (h : link ∈ c.links) : link.2 ∈ c.items := by
  induction c with
  | single a => cases h
  | cons a o rest ih =>
    rw [links, List.mem_cons] at h
    rw [items, List.mem_cons]
    rcases h with rfl | h
    · exact .inr rest.head_mem_items
    · exact .inr (ih h)

theorem readsBack_pair {link : ο × α} (hlabel : ReadsBack label link.1)
    (hitem : ReadsBack item link.2) : ReadsBack (pair label item) link := by
  intro link' r r' hr
  simp only [pair, List.cons_append, List.append_assoc, List.cons.injEq, true_and,
    List.nil_append] at hr
  obtain ⟨ho, hrest⟩ := hlabel hr
  obtain ⟨ha, hrest⟩ := hitem (List.cons.inj (List.cons.inj hrest).2).2
  exact ⟨Prod.ext ho ha, (List.cons.inj hrest).2⟩

/-- **A chain can be read back if its first item and its links can.** -/
theorem readsBack_shown (hitem : ReadsBack item c.head) (hentry : ∀ x ∈ c.links, ReadsBack entry x)
    (hends : ∀ x r r', entry x ++ r ≠ ']' :: r') : ReadsBack (shown opening item entry) c := by
  intro c' r r' hr
  simp only [shown, List.append_assoc] at hr
  obtain ⟨hhead, hrest⟩ := hitem (List.append_cancel_left hr)
  obtain ⟨hlinks, hrest⟩ := readsBack_listed hentry hends (List.append_cancel_left hrest)
  refine ⟨?_, List.append_cancel_left hrest⟩
  rw [← c.ofLinks_links, hhead, hlinks, c'.ofLinks_links]

/-- A chain whose links are shown as pairs. -/
theorem readsBack_pairs (hlabel : ∀ o, ReadsBack label o)
    (hitem : ∀ a ∈ c.items, ReadsBack item a) :
    ReadsBack (shown opening item (pair label item)) c := by
  refine readsBack_shown (hitem _ c.head_mem_items) (fun x hx => ?_) fun x r r' h => ?_
  · exact readsBack_pair (hlabel x.1) (hitem x.2 (snd_mem_items hx))
  · cases (List.cons.inj h).1

end Chain

/-! ## The parts of an outline -/

def Factor.shown (f : Factor) : List Char := (f.sketch "").toList

def Term.shown : Term → List Char :=
  Chain.shown "Term \x7b factor: ".toList Factor.shown
    (Chain.pair (fun o => o.toOperator.label.toList) Factor.shown)

def Expr.shown : Expr → List Char :=
  Chain.shown "Expr \x7b term: ".toList Term.shown
    (Chain.pair (fun o => o.toOperator.label.toList) Term.shown)

def Program.shown : Program → List Char :=
  Chain.shown "Program \x7b list: ExprList \x7b expr: ".toList Expr.shown (Expr.shown ∘ Prod.snd)

theorem toList_append_closing (s : String) :
    (s ++ "] \x7d").toList = s.toList ++ [']'] ++ [' ', '\x7d'] := by
  simp

mutual

theorem Factor.toList_sketch : ∀ (before : String) (f : Factor),
    (f.sketch before).toList = before.toList ++ f.shown
  | before, .number v => by simp [Factor.shown, Factor.sketch]
  | before, .group e => by
    rw [Factor.shown, Factor.sketch, Factor.sketch]
    simp [Expr.toList_sketch _ e]
  | before, .bars e => by
    rw [Factor.shown, Factor.sketch, Factor.sketch]
    simp [Expr.toList_sketch _ e]
  | before, .power b p => by
    rw [Factor.shown, Factor.sketch, Factor.sketch]
    simp [Factor.toList_sketch _ b, Factor.toList_sketch _ p]

theorem Term.toList_sketch : ∀ (before : String) (t : Term),
    (t.sketch before).toList = before.toList ++ t.shown
  | before, .single f => by
    simp [Term.sketch, Term.shown, Chain.shown, Chain.head, Chain.links, listed,
      Factor.toList_sketch _ f]
  | before, .cons f o rest => by
    rw [Term.sketch, toList_append_closing, Term.toList_sketchLinks _ rest]
    simp [Term.shown, Chain.shown, Chain.head, Chain.links, listed, Chain.pair,
      Factor.toList_sketch _ f]

theorem Term.toList_sketchLinks : ∀ (before : String) (t : Term),
    (t.sketchLinks before).toList ++ [']'] = before.toList ++ (Factor.shown t.head ++ ')' ::
      listedMore (Chain.pair (fun o => o.toOperator.label.toList) Factor.shown) t.links)
  | before, .single f => by
    simp [Term.sketchLinks, Chain.head, Chain.links, listedMore, Factor.toList_sketch _ f]
  | before, .cons f o rest => by
    rw [Term.sketchLinks, Term.toList_sketchLinks _ rest]
    simp [Chain.head, Chain.links, listedMore, Chain.pair, Factor.toList_sketch _ f]

theorem Expr.toList_sketch : ∀ (before : String) (e : Expr),
    (e.sketch before).toList = before.toList ++ e.shown
  | before, .single t => by
    simp [Expr.sketch, Expr.shown, Chain.shown, Chain.head, Chain.links, listed,
      Term.toList_sketch _ t]
  | before, .cons t o rest => by
    rw [Expr.sketch, toList_append_closing, Expr.toList_sketchLinks _ rest]
    simp [Expr.shown, Chain.shown, Chain.head, Chain.links, listed, Chain.pair,
      Term.toList_sketch _ t]

theorem Expr.toList_sketchLinks : ∀ (before : String) (e : Expr),
    (e.sketchLinks before).toList ++ [']'] = before.toList ++ (Term.shown e.head ++ ')' ::
      listedMore (Chain.pair (fun o => o.toOperator.label.toList) Term.shown) e.links)
  | before, .single t => by
    simp [Expr.sketchLinks, Chain.head, Chain.links, listedMore, Term.toList_sketch _ t]
  | before, .cons t o rest => by
    rw [Expr.sketchLinks, Expr.toList_sketchLinks _ rest]
    simp [Chain.head, Chain.links, listedMore, Chain.pair, Term.toList_sketch _ t]

end

namespace Factor

theorem shown_number (v : Value) :
    (number v).shown = "Number(".toList ++ (v.text.toList ++ [')']) := by
  simp [shown, sketch]

theorem shown_group (e : Expr) : (group e).shown = "Group(".toList ++ (e.shown ++ [')']) := by
  simp [shown, sketch, Expr.toList_sketch]

theorem shown_bars (e : Expr) : (bars e).shown = "Abs(".toList ++ (e.shown ++ [')']) := by
  simp [shown, sketch, Expr.toList_sketch]

theorem shown_power (b p : Factor) : (power b p).shown = "Exponent \x7b base: ".toList ++
    (b.shown ++ (", power: ".toList ++ (p.shown ++ [' ', '\x7d']))) := by
  rw [shown, sketch]
  simp [toList_sketch]

end Factor

theorem Program.toList_sketchLinks (before : String) (p : Program) :
    (p.sketchLinks before).toList ++ [']'] =
      before.toList ++ (p.head.shown ++ listedMore (Expr.shown ∘ Prod.snd) p.links) := by
  induction p generalizing before with
  | single e => simp [sketchLinks, Chain.head, Chain.links, listedMore, Expr.toList_sketch]
  | cons e o rest ih =>
    rw [sketchLinks, ih]
    simp [Chain.head, Chain.links, listedMore, Expr.toList_sketch]

theorem Program.toList_outline (p : Program) : p.outline.toList = p.shown ++ [' ', '\x7d'] := by
  cases p with
  | single e =>
    simp [outline, Program.shown, Chain.shown, Chain.head, Chain.links, listed, Expr.toList_sketch]
  | cons e o rest =>
    have hclose (s : String) :
        (s ++ "] \x7d \x7d").toList = s.toList ++ [']'] ++ [' ', '\x7d', ' ', '\x7d'] := by
      simp
    rw [outline, hclose, toList_sketchLinks]
    simp [Program.shown, Chain.shown, Chain.head, Chain.links, listed, Expr.toList_sketch]

/-! ## Unique reading -/

namespace Operator

theorem length_label (o : Operator) : o.label.toList.length = 3 := by
  cases o <;> rfl

theorem label_injective {o o' : Operator} : o.label.toList = o'.label.toList → o = o' := by
  cases o <;> cases o' <;> decide

/-- All labels have the same length, so one ends where another would. -/
theorem readsBack (o : Operator) : ReadsBack (fun o : Operator => o.label.toList) o := by
  intro o' r r' h
  obtain ⟨hlabel, hrest⟩ := List.append_inj h (by rw [length_label, length_label])
  exact ⟨label_injective hlabel, hrest⟩

end Operator

theorem AddOp.readsBack (o : AddOp) : ReadsBack (fun o : AddOp => o.toOperator.label.toList) o := by
  refine o.toOperator.readsBack.of_injective fun o o' h => ?_
  cases o <;> cases o' <;> first | rfl | cases h

theorem MulOp.readsBack (o : MulOp) : ReadsBack (fun o : MulOp => o.toOperator.label.toList) o := by
  refine o.toOperator.readsBack.of_injective fun o o' h => ?_
  cases o <;> cases o' <;> first | rfl | cases h

namespace Factor

/-- The first character of an outline, which tells the kind of a factor. -/
def initial : Factor → Char
  | .number _ => 'N'
  | .group _ => 'G'
  | .bars _ => 'A'
  | .power _ _ => 'E'

theorem head?_shown_append (f : Factor) (r : List Char) :
    (f.shown ++ r).head? = some f.initial := by
  cases f with
  | number v => rw [shown_number]; rfl
  | group e => rw [shown_group]; rfl
  | bars e => rw [shown_bars]; rfl
  | power b p => rw [shown_power]; rfl

theorem initial_eq {f g : Factor} {r r' : List Char} (h : f.shown ++ r = g.shown ++ r') :
    f.initial = g.initial := by
  have hhead := congrArg List.head? h
  rwa [head?_shown_append, head?_shown_append, Option.some.injEq] at hhead

end Factor

/-- An expression between a fixed opening and a parenthesis. -/
theorem inner_eq {opening r r' : List Char} {e e' : Expr} (he : ReadsBack Expr.shown e)
    (h : opening ++ (e.shown ++ [')']) ++ r = opening ++ (e'.shown ++ [')']) ++ r') :
    e = e' ∧ r = r' := by
  simp only [List.append_assoc] at h
  obtain ⟨rfl, hrest⟩ := he (List.append_cancel_left h)
  exact ⟨rfl, List.append_cancel_left hrest⟩

mutual

/-- **The outline of a factor is the outline of no other factor**, wherever it stands. -/
theorem Factor.readsBack : ∀ f : Factor, ReadsBack Factor.shown f
  | .number v => by
    intro g r r' h
    have hinitial := Factor.initial_eq h
    cases g with
    | number w =>
      simp only [Factor.shown_number, List.append_assoc] at h
      have hparen (r : List Char) : ∀ c ∈ (')' :: r).head?, Value.isFigure c = false := by
        rintro c ⟨⟩
        rfl
      obtain ⟨rfl, hrest⟩ :=
        Value.text_append_inj (hparen r) (hparen r') (List.append_cancel_left h)
      exact ⟨rfl, (List.cons.inj hrest).2⟩
    | group | bars | power => cases hinitial
  | .group e => by
    intro g r r' h
    have hinitial := Factor.initial_eq h
    cases g with
    | group e' =>
      rw [Factor.shown_group, Factor.shown_group] at h
      obtain ⟨rfl, hrest⟩ :=
        inner_eq (Chain.readsBack_pairs AddOp.readsBack (Expr.items_readBack e)) h
      exact ⟨rfl, hrest⟩
    | number | bars | power => cases hinitial
  | .bars e => by
    intro g r r' h
    have hinitial := Factor.initial_eq h
    cases g with
    | bars e' =>
      rw [Factor.shown_bars, Factor.shown_bars] at h
      obtain ⟨rfl, hrest⟩ :=
        inner_eq (Chain.readsBack_pairs AddOp.readsBack (Expr.items_readBack e)) h
      exact ⟨rfl, hrest⟩
    | number | group | power => cases hinitial
  | .power b p => by
    intro g r r' h
    have hinitial := Factor.initial_eq h
    cases g with
    | power b' p' =>
      simp only [Factor.shown_power, List.append_assoc] at h
      obtain ⟨rfl, hexponent⟩ := Factor.readsBack b (List.append_cancel_left h)
      obtain ⟨rfl, hrest⟩ := Factor.readsBack p (List.append_cancel_left hexponent)
      exact ⟨rfl, List.append_cancel_left hrest⟩
    | number | group | bars => cases hinitial

theorem Term.items_readBack : ∀ t : Term, ∀ f ∈ t.items, ReadsBack Factor.shown f
  | .single f => List.forall_mem_singleton.2 (Factor.readsBack f)
  | .cons f _ rest => List.forall_mem_cons.2 ⟨Factor.readsBack f, Term.items_readBack rest⟩

theorem Expr.items_readBack : ∀ e : Expr, ∀ t ∈ e.items, ReadsBack Term.shown t
  | .single t =>
    List.forall_mem_singleton.2 (Chain.readsBack_pairs MulOp.readsBack (Term.items_readBack t))
  | .cons t _ rest =>
    List.forall_mem_cons.2 ⟨Chain.readsBack_pairs MulOp.readsBack (Term.items_readBack t),
      Expr.items_readBack rest⟩

end

theorem Expr.readsBack (e : Expr) : ReadsBack Expr.shown e :=
  Chain.readsBack_pairs AddOp.readsBack (Expr.items_readBack e)

theorem Program.readsBack (p : Program) : ReadsBack Program.shown p := by
  -- The expressions of a program are listed without semicolons, so a link is its item.
  have hentry (link : Unit × Expr) : ReadsBack (Expr.shown ∘ Prod.snd) link :=
    (Expr.readsBack link.2).of_injective fun _ _ h => Prod.ext rfl h
  refine Chain.readsBack_shown (Expr.readsBack p.head) (fun x _ => hentry x) fun x r r' h => ?_
  cases (List.cons.inj h).1

/-- **The outline identifies the tree.** Two programs, whatever they are made of, have the same
outline only if they are the same. Their texts may well be the same: the text of a power does not
tell whether its base or its exponent is a power. -/
theorem outline_identifies_tree :
    (∀ p q : Program, p.outline = q.outline ↔ p = q) ∧
    ∀ f g h : Factor,
      let left : Program := .single (.single (.single (.power (.power f g) h)))
      let right : Program := .single (.single (.single (.power f (.power g h))))
      left ≠ right ∧ left.text = right.text := by
  refine ⟨fun p q => ⟨fun h => ?_, congrArg _⟩, fun f g h => ?_⟩
  · have hlist := congrArg String.toList h
    rw [Program.toList_outline, Program.toList_outline] at hlist
    exact (Program.readsBack p hlist).1
  · intro left right
    constructor
    · intro heq
      simp only [left, right, Chain.single.injEq, Factor.power.injEq] at heq
      have hsize := congrArg sizeOf heq.1
      simp at hsize
      omega
    · refine String.ext ?_
      rw [Program.toList_text, Program.toList_text]
      simp [left, right, Program.tokens, Expr.tokens, Term.tokens, Factor.tokens]

end Calculator
