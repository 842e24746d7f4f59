import DecisionDiagrams.Grammar.SyntaxError
import DecisionDiagrams.Text.WhiteSpace

/-! The nesting of a text, measured character by character before it is parsed. -/
namespace DecisionDiagrams

structure Nesting where
  /-- The prefix operators in front of each open parenthesis, innermost first. -/
  enclosing : List Nat
  /-- The open parentheses and the prefix operators in front of them. -/
  outer : Nat
  /-- The prefix operators that wait for their operand here. -/
  pending : Nat
  expectsOperand : Bool
  deriving Repr

namespace Nesting

def start : Nesting := ⟨[], 0, 0, true⟩

def depth (n : Nesting) : Nat := n.outer + n.pending

def isOperandChar (c : Char) : Bool := c.isAlphanum || c = '_' || c = '.'

def openGroup (n : Nesting) : Nesting :=
  ⟨n.pending :: n.enclosing, n.outer + (n.pending + 1), 0, true⟩

/-- A parenthesis that closes nothing changes no depth. -/
def closeGroup (n : Nesting) : Nesting :=
  match n.enclosing with
  | count :: enclosing => ⟨enclosing, n.outer - (count + 1), 0, false⟩
  | [] => ⟨[], n.outer, 0, false⟩

def next (n : Nesting) (c : Char) : Nesting :=
  if isWhiteSpace c then n
  else if c = '(' then n.openGroup
  else if c = ')' then n.closeGroup
  else if n.expectsOperand ∧ (c = '-' ∨ c = '!') then { n with pending := n.pending + 1 }
  else if isOperandChar c then { n with pending := 0, expectsOperand := false }
  else { n with expectsOperand := true }

/-- The first character of a text, which starts at `p`, that is nested too deep. -/
def tooDeepAt? (n : Nesting) (p : Position) : List Char → Option Position
  | [] => none
  | c :: cs =>
    if maxNesting < (n.next c).depth then some p else tooDeepAt? (n.next c) (p.after c) cs

/-- The open parentheses with the prefix operators in front of them. -/
def opened : List Nat → Nat
  | [] => 0
  | count :: enclosing => count + 1 + opened enclosing

/-- Every open parenthesis counts, with the prefix operators in front of it. -/
def Counted (n : Nesting) : Prop := n.outer = opened n.enclosing

theorem start_counted : start.Counted := rfl

theorem Counted.openGroup {n : Nesting} (h : n.Counted) : n.openGroup.Counted := by
  simp only [Counted, Nesting.openGroup, opened] at h ⊢
  omega

theorem Counted.closeGroup {n : Nesting} (h : n.Counted) : n.closeGroup.Counted := by
  unfold Counted at h
  unfold Nesting.closeGroup
  split
  next count enclosing he =>
    simp only [he, opened] at h
    simp only [Counted]
    omega
  next he => simpa [Counted, he] using h

theorem Counted.next {n : Nesting} (h : n.Counted) (c : Char) : (n.next c).Counted := by
  unfold Nesting.next
  split
  · exact h
  split
  · exact h.openGroup
  split
  · exact h.closeGroup
  repeat' split
  all_goals exact h

end Nesting

end DecisionDiagrams
