import DecisionDiagrams.Diagram.Node
import DecisionDiagrams.Scalar.Basic
import Std.Data.HashMap

/-! The table of all nodes. Each node is in it once, and its children are there before it. -/
namespace DecisionDiagrams

structure Cell (α : Type) where
  node : Node α
  /-- Every terminal below the node is the constant zero or the constant one. -/
  isZeroOne : Bool

structure Table (α : Type) where
  cells : Array (Cell α)
  numbers : Std.HashMap NodeKey Nat
  below : ∀ d (h : d < cells.size), cells[d].node.Below d

namespace Table

def zero : Nat := 0

def one : Nat := 1

variable {α : Type} [Scalar α]

def initial : Table α where
  cells := #[⟨.terminal Scalar.zero, true⟩, ⟨.terminal Scalar.one, true⟩]
  numbers := (∅ : Std.HashMap NodeKey Nat)
    |>.insert (Node.terminal (α := α) Scalar.zero).key zero
    |>.insert (Node.terminal (α := α) Scalar.one).key one
  below d h := by
    match d, h with
    | 0, _ => trivial
    | 1, _ => trivial

def size (t : Table α) : Nat := t.cells.size

/-- The node with a number. A number that is not in the table reads as the constant zero. -/
def node (t : Table α) (d : Nat) : Node α := t.cells[d]?.elim (.terminal Scalar.zero) Cell.node

def isZeroOne (t : Table α) (d : Nat) : Bool := t.cells[d]?.any Cell.isZeroOne

theorem node_below (t : Table α) (d : Nat) : (t.node d).Below d := by
  unfold node
  by_cases h : d < t.cells.size
  · simpa [h] using t.below d h
  · simp [h, Node.Below]

theorem child_lt {t : Table α} {d low high : Nat} {level : Nat}
    (h : t.node d = .branch level low high) : low < d ∧ high < d := by
  simpa [h, Node.Below] using t.node_below d

/-- Whether the terminals below a new node are zero and one. Those two are in the table from the
start, so that a new terminal is neither. -/
def isZeroOneNode (t : Table α) : Node α → Bool
  | .terminal _ => false
  | .branch _ low high => t.isZeroOne low && t.isZeroOne high

/-- Adds a node, which gets the next number. -/
def push (t : Table α) (n : Node α) (h : n.Below t.size) : Table α where
  cells := t.cells.push ⟨n, t.isZeroOneNode n⟩
  numbers := t.numbers.insert n.key t.size
  below := by
    intro d hd
    rw [Array.getElem_push]
    split
    next hlt => exact t.below d hlt
    next hge =>
      rw [Array.size_push] at hd
      have hdn : d = t.size := by unfold size; omega
      simpa [hdn] using h

/-- The number of a node, which is added to the table unless it is there. -/
def insert (t : Table α) (n : Node α) (h : n.Below t.size) : Nat × Table α :=
  match t.numbers[n.key]? with
  | some d => (d, t)
  | none => (t.size, t.push n h)

/-- The constant diagram of a value. -/
def terminal (t : Table α) (x : α) : Nat × Table α :=
  t.insert (.terminal (Scalar.canonical x)) trivial

/-- The diagram that decides a level. If both sides are equal it is that side, so that no
branch is needed. -/
def branch (t : Table α) (level : Nat) (low high : Nat) : Nat × Table α :=
  if h : low ≠ high ∧ low < t.size ∧ high < t.size then t.insert (.branch level low high) h.2
  else (low, t)

def about {β : Type} (t : Table α) (d : Nat) (answer : β) : Option β :=
  if d < t.size then some answer else none

end Table

end DecisionDiagrams
