import DecisionDiagrams.Diagram.Table
import Std.Data.TreeSet

/-! The nodes of a diagram. Children have smaller numbers than their parents, so one sweep from
the top of the table down finds all of them. -/
namespace DecisionDiagrams

namespace Table

variable {α : Type} [Scalar α]

def addChildren (found : Std.TreeSet Nat) : Node α → Std.TreeSet Nat
  | .terminal _ => found
  | .branch _ low high => (found.insert low).insert high

/-- Adds the nodes below those that are found already and have numbers below the bound. -/
def sweep (t : Table α) : Nat → Std.TreeSet Nat → Std.TreeSet Nat
  | 0, found => found
  | d + 1, found => t.sweep d (if d ∈ found then addChildren found (t.node d) else found)

/-- The nodes that a path from one of `roots` meets, in ascending order. -/
def reachable (t : Table α) (roots : List Nat) : Std.TreeSet Nat := t.sweep t.size (.ofList roots)

def nodeCount (t : Table α) (d : Nat) : Nat := (t.reachable [d]).size

end Table

end DecisionDiagrams
