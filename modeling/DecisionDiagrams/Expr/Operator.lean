/-! The operators of expressions. -/
namespace DecisionDiagrams

inductive Operator where
  | add
  | subtract
  | negate
  | multiply
  | divide
  | and
  | or
  | not
  deriving DecidableEq, Repr

namespace Operator

def arity : Operator → Nat
  | negate | not => 1
  | add | subtract | multiply | divide | and | or => 2

def isLogical : Operator → Bool
  | and | or | not => true
  | add | subtract | negate | multiply | divide => false

def symbol : Operator → String
  | add => "+"
  | subtract | negate => "-"
  | multiply => "*"
  | divide => "/"
  | and => "&&"
  | or => "||"
  | not => "!"

/-- How tightly an operator holds its operands. -/
def precedence : Operator → Nat
  | or => 0
  | and => 1
  | add | subtract => 2
  | multiply | divide => 3
  | negate | not => 4

def description (op : Operator) : String :=
  (if op.arity = 1 then "unary" else "binary") ++ " `" ++ op.symbol ++ "`"

end Operator

end DecisionDiagrams
