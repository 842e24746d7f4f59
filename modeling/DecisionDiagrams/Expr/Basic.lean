import DecisionDiagrams.Expr.Operator
import Std.Data.TreeSet

/-! Expression trees over literals of any type, and the names that occur in them. -/
namespace DecisionDiagrams

/-- The number of operands of an `apply` node need not be the arity of its operator. -/
inductive Expr (α : Type) where
  | literal (value : α)
  | variable (name : String)
  | apply (op : Operator) (operands : List (Expr α))

namespace Expr

variable {α : Type}

mutual

def size : Expr α → Nat
  | .literal _ => 1
  | .variable _ => 1
  | .apply _ operands => 1 + sizeAll operands

def sizeAll : List (Expr α) → Nat
  | [] => 0
  | tree :: trees => size tree + sizeAll trees

end

@[simp] theorem sizeAll_append (trees trees' : List (Expr α)) :
    sizeAll (trees ++ trees') = sizeAll trees + sizeAll trees' := by
  induction trees with
  | nil => simp [sizeAll]
  | cons tree trees ih => simp [sizeAll, ih, Nat.add_assoc]

/-- Adds the names that occur in any of `trees` to `found`. -/
def collectNames (trees : List (Expr α)) (found : Std.TreeSet String) : Std.TreeSet String :=
  match trees with
  | [] => found
  | .literal _ :: trees => collectNames trees found
  | .variable name :: trees => collectNames trees (found.insert name)
  | .apply _ operands :: trees => collectNames (operands ++ trees) found
termination_by sizeAll trees
decreasing_by all_goals simp only [sizeAll, size, sizeAll_append]; omega

def names (tree : Expr α) : Std.TreeSet String := collectNames [tree] ∅

mutual

def equalBy (eq : α → α → Bool) : Expr α → Expr α → Bool
  | .literal x, .literal y => eq x y
  | .variable x, .variable y => x == y
  | .apply op xs, .apply op' ys => op == op' && equalListBy eq xs ys
  | _, _ => false

def equalListBy (eq : α → α → Bool) : List (Expr α) → List (Expr α) → Bool
  | [], [] => true
  | x :: xs, y :: ys => equalBy eq x y && equalListBy eq xs ys
  | _, _ => false

end

end Expr

end DecisionDiagrams
