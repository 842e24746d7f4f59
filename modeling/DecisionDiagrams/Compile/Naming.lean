import DecisionDiagrams.Compile.Failure
import DecisionDiagrams.Diagram.Manager
import Std.Data.TreeMap

/-! What names stand for while an expression is compiled. -/
namespace DecisionDiagrams

abbrev Bindings := Std.TreeMap String Nat

inductive Naming where
  /-- Every name has the diagram that is given for it. -/
  | interpretation (given : Bindings)
  /-- Every name is the variable of that name. -/
  | encoding

namespace Manager

variable {α : Type} [Scalar α]

/-- Restricts an interpretation to `names`, unless one of them is missing or out of range. All
missing names are reported, or else all names out of range. -/
def restrict (m : Manager α) (given : Bindings) (names : List String) :
    Except CompileError Bindings :=
  let missing := names.filter fun name => given[name]?.isNone
  let unknown := names.filter fun name => given[name]?.any fun d => !m.contains d
  if !missing.isEmpty then .error (.unresolvedVariables missing)
  else if !unknown.isEmpty then .error (.unknownDiagrams unknown)
  else .ok (.ofList (names.filterMap fun name => given[name]?.map (name, ·)))

def bindVariables (m : Manager α) (bindings : Bindings) : List String → Bindings × Manager α
  | [] => (bindings, m)
  | name :: names =>
    let (d, m) := m.indicator name
    m.bindVariables (bindings.insert name d) names

def resolve (m : Manager α) (names : Std.TreeSet String) :
    Naming → Except CompileError Bindings × Manager α
  | .interpretation given => (m.restrict given names.toList, m)
  | .encoding =>
    let (bindings, m) := m.bindVariables ∅ names.toList
    (.ok bindings, m)

end Manager

end DecisionDiagrams
