import Calculator.Chain
import Calculator.Parser.Cursor

/-!
# Rules

A rule reads one phrase of the grammar. It carries the proof that whatever it accepts takes
something from the input, and that is what ends the loop that reads a chain: every item of a
chain leaves less ahead than there was before it.
-/

namespace Calculator

structure Rule (α : Type) where
  run : Parse α
  progress : ∀ {c c' : Cursor} {a : α}, run c = .ok a c' → c'.size < c.size

namespace Rule

variable {ο α β : Type}

/-- The rule for what is nested too deep. It refuses everything. -/
def tooDeep : Rule α where
  run := throw (.parse .nestingTooDeep)
  progress h := nomatch h

/-- Reads what is left of a chain. Its operators are gone past with `move`. The items and operators
before are given nearest first. -/
def readChain (item : Rule α) (op? : Token → Option ο) (move : Move) (before : List (α × ο)) :
    Parse (Chain ο α) := fun c =>
  match _hi : item.run c with
  | .error e c₁ => .error e c₁
  | .ok a c₁ =>
    match op? c₁.current with
    | none => .ok (.endingIn a before) c₁
    | some o =>
      match _ha : move.run c₁ with
      | .error e c₂ => .error e c₂
      | .ok _ c₂ => readChain item op? move ((a, o) :: before) c₂
termination_by c => c.size
decreasing_by
  have := item.progress _hi
  have := Move.size_of_run _ha
  omega

theorem size_of_readChain {item : Rule α} {op? : Token → Option ο} {move : Move}
    {before : List (α × ο)} {c c' : Cursor} {chain : Chain ο α}
    (h : item.readChain op? move before c = .ok chain c') : c'.size < c.size := by
  fun_induction readChain item op? move before c with
  | case1 before c e c₁ hi => cases h
  | case2 before c a c₁ hi ho => cases h; exact item.progress hi
  | case3 before c a c₁ hi o ho e c₂ ha => cases h
  | case4 before c a c₁ hi o ho u c₂ ha ih =>
    have := item.progress hi
    have := Move.size_of_run ha
    have := ih h
    omega

/-- Items with operators between them. -/
def chain (item : Rule α) (op? : Token → Option ο) (move : Move) : Rule (Chain ο α) where
  run := item.readChain op? move []
  progress := size_of_readChain

end Rule

end Calculator
