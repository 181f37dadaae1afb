import Calculator.Chain
import Calculator.Tree.Copy
import Calculator.Tree.Equality

/-!
# Operations on chains

A chain is as long as the text it was read from, so whatever walks one goes along its links in a
loop: putting a chain together, listing its links, copying it, comparing it with another one. These
loops are the structural operations: nothing is dropped or turned around, and two chains are found
the same only if they are.

**Theorem (`Chain.agree_iff`).** Comparing first items and then link by link decides equality, if
comparing items does.

**Theorem (`chain_operations_are_structural`).** Rows of factors, of terms and of expressions are
put together, listed, copied and compared structurally.
-/

namespace Calculator

namespace Chain

variable {ο α : Type}

/-! ## Putting chains together -/

theorem items_eq (c : Chain ο α) : c.items = c.head :: c.links.map Prod.snd := by
  induction c with
  | single a => rfl
  | cons a o rest ih => rw [items, ih, links, head, List.map_cons]

theorem ofLinks_inj {a b : α} {links links' : List (ο × α)} :
    ofLinks a links = ofLinks b links' ↔ a = b ∧ links = links' := by
  constructor
  · intro h
    have hhead := congrArg head h
    have hlinks := congrArg Chain.links h
    simp only [head_ofLinks, links_ofLinks] at hhead hlinks
    exact ⟨hhead, hlinks⟩
  · rintro ⟨rfl, rfl⟩
    rfl

theorem items_prepend (before : List (α × ο)) (c : Chain ο α) :
    (c.prepend before).items = (before.map Prod.fst).reverse ++ c.items := by
  induction before generalizing c with
  | nil => rfl
  | cons link before ih =>
    rw [prepend, List.foldl_cons, ← prepend, ih]
    simp [items]

theorem operators_prepend (before : List (α × ο)) (c : Chain ο α) :
    (c.prepend before).links.map Prod.fst =
      (before.map Prod.snd).reverse ++ c.links.map Prod.fst := by
  induction before generalizing c with
  | nil => rfl
  | cons link before ih =>
    rw [prepend, List.foldl_cons, ← prepend, ih]
    simp [links]

/-- A chain is what its items and operators make it. -/
theorem eq_ofLinks {c : Chain ο α} {a : α} {rest : List α} {operators : List ο}
    (hitems : c.items = a :: rest) (hoperators : c.links.map Prod.fst = operators) :
    c = ofLinks a (operators.zip rest) := by
  rw [items_eq, List.cons.injEq] at hitems
  obtain ⟨rfl, hrest⟩ := hitems
  rw [← List.zip_of_prod hoperators hrest, ofLinks_links]

/-! ## Comparing chains -/

variable [DecidableEq ο] {same : α → α → Bool}

/-- Whether two lists of links are as long, and have the same operator and item at each place. -/
def agreeLinks (same : α → α → Bool) (links links' : List (ο × α)) : Bool :=
  links.isEqv links' fun (o, a) (o', a') => o = o' && same a a'

/-- Whether the first items of two chains are the same, and then all their links. -/
def agree (same : α → α → Bool) (c c' : Chain ο α) : Bool :=
  same c.head c'.head && agreeLinks same c.links c'.links

theorem agreeLinks_iff (hsame : ∀ a b, same a b = true ↔ a = b) (links links' : List (ο × α)) :
    agreeLinks same links links' = true ↔ links = links' := by
  induction links generalizing links' with
  | nil => cases links' <;> simp [agreeLinks, List.isEqv]
  | cons link links ih =>
    cases links' with
    | nil => simp [agreeLinks, List.isEqv]
    | cons link' links' =>
      have ih := ih links'
      rw [agreeLinks] at ih
      simp [agreeLinks, List.isEqv, hsame, ih, Prod.ext_iff]

/-- **Comparing link by link decides equality**, if comparing items does. -/
theorem agree_iff (hsame : ∀ a b, same a b = true ↔ a = b) (c c' : Chain ο α) :
    c.agree same c' = true ↔ c = c' := by
  rw [agree, Bool.and_eq_true, hsame, agreeLinks_iff hsame, ← ofLinks_inj, ofLinks_links,
    ofLinks_links]

/-- What makes copying and comparing some chains structural, given how their items are compared. -/
structure IsStructural (copy : Chain ο α → Chain ο α) (sameItem : α → α → Bool)
    (same : Chain ο α → Chain ο α → Bool) : Prop where
  /-- A copy is the same chain. -/
  copy_eq : ∀ c, copy c = c
  /-- First items are compared, and then all links. -/
  linkwise : ∀ c c', same c c' = c.agree sameItem c'
  same_iff : ∀ c c', same c c' = true ↔ c = c'
  links_iff : ∀ links links' : List (ο × α),
    agreeLinks sameItem links links' = true ↔ links = links'
  /-- Chains that differ at most in one operator are told apart by it. -/
  operator_iff : ∀ (a : α) before (o o' : ο) b after,
    same (ofLinks a (before ++ (o, b) :: after)) (ofLinks a (before ++ (o', b) :: after)) = true
      ↔ o = o'
  /-- A chain and one that goes on after it are told apart, whichever comes first. -/
  longer_iff : ∀ (a : α) (links more : List (ο × α)),
    (same (ofLinks a links) (ofLinks a (links ++ more)) = true ↔ more = []) ∧
      (same (ofLinks a (links ++ more)) (ofLinks a links) = true ↔ more = [])

/-- It is enough that copying changes nothing and that items and chains are compared exactly: two
comparisons that decide equality are the same. -/
theorem IsStructural.of_iff {copy : Chain ο α → Chain ο α} {sameItem : α → α → Bool}
    {same : Chain ο α → Chain ο α → Bool} (hcopy : ∀ c, copy c = c)
    (hitem : ∀ a b, sameItem a b = true ↔ a = b) (hsame : ∀ c c', same c c' = true ↔ c = c') :
    IsStructural copy sameItem same := by
  refine ⟨hcopy, fun c c' => ?_, hsame, agreeLinks_iff hitem, ?_, ?_⟩
  · rw [Bool.eq_iff_iff, hsame, agree_iff hitem]
  · intro a before o o' b after
    rw [hsame, ofLinks_inj]
    simp
  · intro a links more
    rw [hsame, hsame, ofLinks_inj, ofLinks_inj]
    simp

end Chain

/-- **The operations on chains are structural.** A chain put together from a first item and a list
of links gives these back, and one put together from its end, out of the items and operators
collected on the way, is the chain of these in their order. Trees of every kind are copied to the
same tree and found the same exactly if they are; for rows this is decided link by link, so that
neither another operator nor more links at the end go unnoticed. -/
theorem chain_operations_are_structural :
    (∀ {ο α : Type} (a : α) (links : List (ο × α)),
      (Chain.ofLinks a links).head = a ∧ (Chain.ofLinks a links).links = links) ∧
    (∀ {ο α : Type} (last : α) (before : List (α × ο)),
      (Chain.endingIn last before).items = (before.map Prod.fst).reverse ++ [last] ∧
        (Chain.endingIn last before).links.map Prod.fst = (before.map Prod.snd).reverse ∧
        let items := (before.map Prod.fst).reverse ++ [last]
        Chain.endingIn last before =
          .ofLinks (items.head (by simp [items])) ((before.map Prod.snd).reverse.zip items.tail)) ∧
    (∀ {ο α : Type} (c : Chain ο α), c.items = c.head :: c.links.map Prod.snd) ∧
    (∀ f : Factor, f.copy = f) ∧ (∀ f g : Factor, f.same g = true ↔ f = g) ∧
    Chain.IsStructural Term.copy Factor.same Term.same ∧
    Chain.IsStructural Expr.copy Term.same Expr.same ∧
    Chain.IsStructural Program.copy Expr.same Program.same := by
  refine ⟨fun a links => ⟨Chain.head_ofLinks a links, Chain.links_ofLinks a links⟩,
    fun last before => ?_, Chain.items_eq, Factor.copy_eq, Factor.same_iff, ?_, ?_, ?_⟩
  · have hitems : (Chain.endingIn last before).items = (before.map Prod.fst).reverse ++ [last] :=
      Chain.items_prepend before (.single last)
    have hoperators : (Chain.endingIn last before).links.map Prod.fst =
        (before.map Prod.snd).reverse := by
      rw [Chain.endingIn, Chain.operators_prepend]
      exact List.append_nil _
    refine ⟨hitems, hoperators, Chain.eq_ofLinks ?_ hoperators⟩
    rw [hitems, List.cons_head_tail]
  · exact .of_iff (Term.copyOnto_eq []) Factor.same_iff Term.same_iff
  · exact .of_iff (Expr.copyOnto_eq []) Term.same_iff Expr.same_iff
  · exact .of_iff Program.copy_eq Expr.same_iff Program.same_iff

end Calculator
