import DecisionDiagrams.Diagram.Store
import DecisionDiagrams.Diagram.Reachable
import DecisionDiagrams.Diagram.Value
import DecisionDiagrams.Diagram.Variables

/-! Diagrams over named variables. -/
namespace DecisionDiagrams

structure Manager (α : Type) where
  store : Store α
  vars : Variables

namespace Manager

variable {α : Type} [Scalar α]

def initial : Manager α := ⟨Store.initial, Variables.none⟩

def table (m : Manager α) : Table α := m.store.table

def nodeCount (m : Manager α) : Nat := m.table.size

def variableCount (m : Manager α) : Nat := m.vars.size

def contains (m : Manager α) (d : Nat) : Bool := d < m.nodeCount

def value? (m : Manager α) (a : Assignment) (d : Nat) : Option α :=
  m.table.about d (m.table.value a.truth d)

def constant? (m : Manager α) (d : Nat) : Option (Option α) :=
  m.table.about d (m.table.constant? d)

def size? (m : Manager α) (d : Nat) : Option Nat := m.table.about d (m.table.nodeCount d)

def constant (m : Manager α) (x : α) : Nat × Manager α :=
  let (d, store) := m.store.constant x
  (d, { m with store })

/-- The diagram that is one where the named variable is true and zero elsewhere. -/
def indicator (m : Manager α) (name : String) : Nat × Manager α :=
  let (level, vars) := m.vars.intern name
  let (d, table) := m.store.table.branch level Table.zero Table.one
  (d, ⟨{ m.store with table }, vars⟩)

/-- Refuses operands that are not in the table, and then changes nothing. -/
def perform? (m : Manager α) (c : Call) : Option Nat × Manager α :=
  let (d, store) := m.store.perform? c
  (d, { m with store })

def combine (m : Manager α) (op : BinaryOp) (f g : Nat) : Option Nat × Manager α :=
  m.perform? (.binary op f g)

def negate (m : Manager α) (f : Nat) : Option Nat × Manager α := m.perform? (.unary .negate f)

def complement (m : Manager α) (f : Nat) : Option Nat × Manager α :=
  m.perform? (.unary .complement f)

end Manager

end DecisionDiagrams
