import DecisionDiagrams.Scalar.Basic

/-! The nodes of diagrams. A diagram is known by the number of its topmost node, and nodes are
numbered in the order in which they are made. -/
namespace DecisionDiagrams

/-- A branch tests the variable of its level. It goes on at `low` if the variable is false and
at `high` if it is true. -/
inductive Node (α : Type) where
  | terminal (value : α)
  | branch (level : Nat) (low high : Nat)

inductive NodeKey where
  | terminal (number : Decoded)
  | branch (level : Nat) (low high : Nat)
  deriving DecidableEq, Hashable

def Node.key {α : Type} [Scalar α] : Node α → NodeKey
  | .terminal x => .terminal (Scalar.decode x)
  | .branch level low high => .branch level low high

/-- Children have smaller numbers than `bound`. -/
def Node.Below {α : Type} (bound : Nat) : Node α → Prop
  | .terminal _ => True
  | .branch _ low high => low < bound ∧ high < bound

theorem Node.Below.mono {α : Type} {n : Node α} {a b : Nat} (h : n.Below a) (hab : a ≤ b) :
    n.Below b := by
  cases n with
  | terminal => trivial
  | branch => exact ⟨Nat.lt_of_lt_of_le h.1 hab, Nat.lt_of_lt_of_le h.2 hab⟩

end DecisionDiagrams
