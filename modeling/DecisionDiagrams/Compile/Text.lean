import DecisionDiagrams.Compile.Tree
import DecisionDiagrams.Grammar.Expression

/-! From texts to diagrams. -/
namespace DecisionDiagrams

/-- Names that become variables are truth values, over which there is only logic. -/
def Naming.vocabulary : Naming → Vocabulary
  | interpretation _ => .full
  | encoding => .propositional

namespace Manager

variable {α : Type} [Scalar α]

def evaluate (m : Manager α) (bindings : Bindings) (vocabulary : Vocabulary) (e : Expr α) :
    Except Failure Nat × Manager α :=
  let (result, store) := m.store.evaluate bindings vocabulary e
  (result, { m with store })

def compileExpr (m : Manager α) (e : Expr α) (naming : Naming) :
    Except Failure Nat × Manager α :=
  match m.resolve e.names naming with
  | (.error error, m) => (.error (.rejected error), m)
  | (.ok bindings, m) => m.evaluate bindings naming.vocabulary e

def compile (m : Manager α) (text : String) (naming : Naming) :
    Except Failure Nat × Manager α :=
  match parse text with
  | .error error => (.error (.rejected (.malformed error)), m)
  | .ok e => m.compileExpr e naming

def solve (m : Manager α) (text : String) (given : Bindings) : Except Failure Nat × Manager α :=
  m.compile text (.interpretation given)

def solveConstant (m : Manager α) (text : String) : Except Failure Nat × Manager α :=
  m.solve text ∅

/-- The diagram of a propositional formula over the variables that it names. -/
def encode (m : Manager α) (text : String) : Except Failure Nat × Manager α :=
  m.compile text .encoding

end Manager

end DecisionDiagrams
