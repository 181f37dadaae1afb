/-!
# Chains

A row of items with an operator between each two neighbours, such as the terms of a sum. A
chain says nothing about how its operators associate; whoever evaluates it does.

**Theorem (`Chain.links_ofLinks`).** A chain is its first item followed by a list of links, each
an operator and the item after it: taking apart what was put together gives the links back.
-/

namespace Calculator

inductive Chain (ο α : Type) where
  | single (item : α)
  | cons (item : α) (op : ο) (rest : Chain ο α)

namespace Chain

variable {ο α : Type}

def head : Chain ο α → α
  | .single a => a
  | .cons a _ _ => a

/-- Each operator with the item after it. -/
def links : Chain ο α → List (ο × α)
  | .single _ => []
  | .cons _ o rest => (o, rest.head) :: rest.links

def items : Chain ο α → List α
  | .single a => [a]
  | .cons a _ rest => a :: rest.items

/-- Each item with the operator before it. -/
def steps (c : Chain ο α) : List (Option ο × α) :=
  (none, c.head) :: c.links.map fun (o, a) => (some o, a)

/-- The chain with a given first item and links. -/
def ofLinks (a : α) : List (ο × α) → Chain ο α
  | [] => .single a
  | (o, b) :: links => .cons a o (ofLinks b links)

/-- The chain after some items and operators, given nearest first. -/
def prepend (before : List (α × ο)) (c : Chain ο α) : Chain ο α :=
  before.foldl (fun rest (a, o) => .cons a o rest) c

/-- The chain with a given last item and, nearest first, the items and operators before it. -/
def endingIn (last : α) (before : List (α × ο)) : Chain ο α := (single last).prepend before

@[simp] theorem head_ofLinks (a : α) (links : List (ο × α)) : (ofLinks a links).head = a := by
  cases links <;> rfl

@[simp] theorem links_ofLinks (a : α) (links : List (ο × α)) :
    (ofLinks a links).links = links := by
  induction links generalizing a with
  | nil => rfl
  | cons link links ih =>
    obtain ⟨o, b⟩ := link
    rw [ofLinks, Chain.links, ih, head_ofLinks]

@[simp] theorem ofLinks_links (c : Chain ο α) : ofLinks c.head c.links = c := by
  induction c with
  | single a => rfl
  | cons a o rest ih => rw [Chain.links, ofLinks, ih, head]

end Chain

end Calculator
