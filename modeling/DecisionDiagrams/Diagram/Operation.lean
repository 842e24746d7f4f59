import DecisionDiagrams.Expr.Operator
import DecisionDiagrams.Scalar.Basic

/-! Operations on terminal values, which diagrams extend to every assignment. -/
namespace DecisionDiagrams

inductive UnaryOp where
  | negate
  | complement
  deriving DecidableEq, Hashable, Repr

inductive BinaryOp where
  | add
  | subtract
  | multiply
  | divide
  | and
  | or
  deriving DecidableEq, Hashable, Repr

section Compute

variable {α : Type} [Scalar α]

def UnaryOp.compute (op : UnaryOp) (x : α) : α :=
  match op with
  | negate => Scalar.negate x
  | complement => Scalar.ofBool (!Scalar.isTrue x)

def BinaryOp.compute (op : BinaryOp) (x y : α) : α :=
  match op with
  | add => Scalar.add x y
  | subtract => Scalar.subtract x y
  | multiply => Scalar.multiply x y
  | divide => Scalar.divide x y
  | and => Scalar.ofBool (Scalar.isTrue x && Scalar.isTrue y)
  | or => Scalar.ofBool (Scalar.isTrue x || Scalar.isTrue y)

end Compute

namespace BinaryOp

def isCommutative : BinaryOp → Bool
  | subtract | divide => false
  | add | multiply | and | or => true

/-- For a connective, whether a true operand decides it. -/
def decidedBy? : BinaryOp → Option Bool
  | and => some false
  | or => some true
  | add | subtract | multiply | divide => none

end BinaryOp

inductive Operation where
  | unary (op : UnaryOp)
  | binary (op : BinaryOp)
  deriving DecidableEq, Repr

def Operator.operation : Operator → Operation
  | add => .binary .add
  | subtract => .binary .subtract
  | negate => .unary .negate
  | multiply => .binary .multiply
  | divide => .binary .divide
  | and => .binary .and
  | or => .binary .or
  | not => .unary .complement

end DecisionDiagrams
