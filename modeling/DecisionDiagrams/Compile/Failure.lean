import DecisionDiagrams.Grammar.SyntaxError
import DecisionDiagrams.Expr.Operator

/-! Why a text or a tree has no diagram. -/
namespace DecisionDiagrams

inductive CompileError where
  | malformed (e : SyntaxError)
  | unresolvedVariables (names : List String)
  /-- The names are bound to numbers that are not in the table. -/
  | unknownDiagrams (names : List String)
  | arityMismatch (op : Operator) (found : Nat)
  | operatorNotAllowed (op : Operator)
  deriving DecidableEq, Repr

def CompileError.message : CompileError → String
  | malformed e => "syntax error: " ++ e.message
  | unresolvedVariables names =>
    "no interpretation provided for variables: " ++ ", ".intercalate names
  | unknownDiagrams names =>
    "interpretation binds variables to diagrams the manager does not own: " ++
      ", ".intercalate names
  | arityMismatch op found =>
    op.description ++ " expects " ++ toString op.arity ++ " operand(s), got " ++ toString found
  | operatorNotAllowed op => op.description ++ " is not allowed in a propositional formula"

inductive Failure where
  | rejected (e : CompileError)
  /-- An operator met a number that is not in the table. -/
  | outOfRange
  deriving DecidableEq, Repr

end DecisionDiagrams
