import DecisionDiagrams.Compile.Naming
import DecisionDiagrams.Expr.Basic

/-! The diagram of a tree whose names are bound. Nodes are met from left to right, and each
operator is checked before its operands and carried out after them. -/
namespace DecisionDiagrams

inductive Vocabulary where
  | full
  | propositional
  deriving DecidableEq, Repr

def Vocabulary.allows : Vocabulary → Operator → Bool
  | full, _ => true
  | propositional, op => op.isLogical

inductive Pending (α : Type) where
  | only (op : UnaryOp)
  | left (op : BinaryOp) (right : Expr α)
  | right (op : BinaryOp) (left : Nat)

inductive Evaluation (α : Type) where
  | tree (e : Expr α)
  | diagram (d : Nat)

def Evaluation.weight {α : Type} : Evaluation α → Nat
  | tree e => 3 * e.size
  | diagram _ => 0

def Pending.weight {α : Type} : Pending α → Nat
  | only _ => 1
  | left _ e => 3 * e.size + 2
  | right _ _ => 1

def Pending.weightAll {α : Type} : List (Pending α) → Nat
  | [] => 0
  | op :: pending => op.weight + weightAll pending

inductive Operands (α : Type) where
  | one (op : UnaryOp) (e : Expr α)
  | two (op : BinaryOp) (e e' : Expr α)

def Operator.operands? {α : Type} (op : Operator) (operands : List (Expr α)) :
    Option (Operands α) :=
  match op.operation, operands with
  | .unary op, [e] => some (.one op e)
  | .binary op, [e, e'] => some (.two op e e')
  | _, _ => none

theorem Operator.size_of_operands?_eq_one {α : Type} {op : Operator} {operands : List (Expr α)}
    {op' : UnaryOp} {e : Expr α} (h : op.operands? operands = some (.one op' e)) :
    Expr.sizeAll operands = e.size := by
  unfold operands? at h
  split at h <;> cases h
  simp [Expr.sizeAll]

theorem Operator.size_of_operands?_eq_two {α : Type} {op : Operator} {operands : List (Expr α)}
    {op' : BinaryOp} {e e' : Expr α} (h : op.operands? operands = some (.two op' e e')) :
    Expr.sizeAll operands = e.size + e'.size := by
  unfold operands? at h
  split at h <;> cases h
  simp [Expr.sizeAll]

namespace Store

variable {α : Type} [Scalar α]

/-- Goes on with an evaluation whose `pending` operators wait, the innermost one first. -/
def evaluateFrom (bindings : Bindings) (vocabulary : Vocabulary) (s : Store α)
    (focus : Evaluation α) (pending : List (Pending α)) : Except Failure Nat × Store α :=
  match focus, pending with
  | .tree (.literal x), pending =>
    let (d, s) := s.constant x
    evaluateFrom bindings vocabulary s (.diagram d) pending
  | .tree (.variable name), pending =>
    match bindings[name]? with
    | some d => evaluateFrom bindings vocabulary s (.diagram d) pending
    | none => (.error (.rejected (.unresolvedVariables [name])), s)
  | .tree (.apply op operands), pending =>
    if !vocabulary.allows op then (.error (.rejected (.operatorNotAllowed op)), s)
    else
      match _h : op.operands? operands with
      | none => (.error (.rejected (.arityMismatch op operands.length)), s)
      | some (.one op e) => evaluateFrom bindings vocabulary s (.tree e) (.only op :: pending)
      | some (.two op e e') => evaluateFrom bindings vocabulary s (.tree e) (.left op e' :: pending)
  | .diagram d, [] => (.ok d, s)
  | .diagram d, .left op e :: pending =>
    evaluateFrom bindings vocabulary s (.tree e) (.right op d :: pending)
  | .diagram d, .only op :: pending =>
    match s.perform? (.unary op d) with
    | (some d, s) => evaluateFrom bindings vocabulary s (.diagram d) pending
    | (none, s) => (.error .outOfRange, s)
  | .diagram d, .right op d' :: pending =>
    match s.perform? (.binary op d' d) with
    | (some d, s) => evaluateFrom bindings vocabulary s (.diagram d) pending
    | (none, s) => (.error .outOfRange, s)
termination_by focus.weight + Pending.weightAll pending
decreasing_by
  · simp only [Evaluation.weight, Expr.size]; omega
  · simp only [Evaluation.weight, Expr.size]; omega
  · have := Operator.size_of_operands?_eq_one _h
    simp only [Evaluation.weight, Pending.weightAll, Pending.weight, Expr.size]; omega
  · have := Operator.size_of_operands?_eq_two _h
    simp only [Evaluation.weight, Pending.weightAll, Pending.weight, Expr.size]; omega
  · simp only [Evaluation.weight, Pending.weightAll, Pending.weight]; omega
  · simp only [Evaluation.weight, Pending.weightAll, Pending.weight]; omega
  · simp only [Evaluation.weight, Pending.weightAll, Pending.weight]; omega

def evaluate (s : Store α) (bindings : Bindings) (vocabulary : Vocabulary) (e : Expr α) :
    Except Failure Nat × Store α :=
  evaluateFrom bindings vocabulary s (.tree e) []

end Store

end DecisionDiagrams
