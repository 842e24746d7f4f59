import DecisionDiagrams.Expr.Basic
import DecisionDiagrams.Scalar.Basic
import Mathlib.Tactic.Tauto

/-! The value of an expression whose names have values, and the trees that have one. -/
namespace DecisionDiagrams

open Scalar

def Operator.result? {α : Type} [Scalar α] : Operator → List α → Option α
  | add, [x, y] => some (Scalar.add x y)
  | subtract, [x, y] => some (Scalar.subtract x y)
  | negate, [x] => some (Scalar.negate x)
  | multiply, [x, y] => some (Scalar.multiply x y)
  | divide, [x, y] => some (Scalar.divide x y)
  | and, [x, y] => some (if isZero x = false ∧ isZero y = false then one else zero)
  | or, [x, y] => some (if isZero x = false ∨ isZero y = false then one else zero)
  | not, [x] => some (if isZero x = false then zero else one)
  | _, _ => none

namespace Expr

variable {α : Type}

mutual

/-- The value of a tree, if its operators have their operands and its names have values. -/
def value? [Scalar α] (env : String → Option α) : Expr α → Option α
  | .literal x => some x
  | .variable name => env name
  | .apply op operands => (values? env operands).bind op.result?

def values? [Scalar α] (env : String → Option α) : List (Expr α) → Option (List α)
  | [] => some []
  | tree :: trees =>
    (value? env tree).bind fun x => (values? env trees).map fun xs => x :: xs

end

inductive Mentions (name : String) : Expr α → Prop where
  | variable : Mentions name (.variable name)
  | operand {op : Operator} {operands : List (Expr α)} {e : Expr α} (h : e ∈ operands)
      (he : Mentions name e) : Mentions name (.apply op operands)

inductive Uses (op : Operator) : Expr α → Prop where
  | root (operands : List (Expr α)) : Uses op (.apply op operands)
  | operand {op' : Operator} {operands : List (Expr α)} {e : Expr α} (h : e ∈ operands)
      (he : Uses op e) : Uses op (.apply op' operands)

inductive ArityCorrect : Expr α → Prop where
  | literal (x : α) : ArityCorrect (.literal x)
  | variable (name : String) : ArityCorrect (.variable name)
  | apply {op : Operator} {operands : List (Expr α)} (h : operands.length = op.arity)
      (hoperands : ∀ e ∈ operands, ArityCorrect e) : ArityCorrect (.apply op operands)

@[simp] theorem mentions_literal {name : String} {x : α} :
    ¬Mentions name (.literal x) := by rintro ⟨⟩

@[simp] theorem mentions_variable {name name' : String} :
    Mentions (α := α) name (.variable name') ↔ name' = name := by
  constructor
  · rintro ⟨⟩; rfl
  · rintro rfl; exact .variable

theorem mentions_apply {name : String} {op : Operator} {operands : List (Expr α)} :
    Mentions name (.apply op operands) ↔ ∃ e ∈ operands, Mentions name e := by
  constructor
  · intro h
    cases h with
    | operand h he => exact ⟨_, h, he⟩
  · rintro ⟨e, h, he⟩; exact .operand h he

theorem mem_collectNames {name : String} (trees : List (Expr α)) (found : Std.TreeSet String) :
    name ∈ collectNames trees found ↔ name ∈ found ∨ ∃ e ∈ trees, e.Mentions name := by
  fun_induction collectNames trees found with
  | case1 found => simp
  | case2 found x trees ih => simp [ih]
  | case3 found name' trees ih =>
    rw [ih, Std.TreeSet.mem_insert, Std.LawfulEqCmp.compare_eq_iff_eq]
    simp only [List.mem_cons, exists_eq_or_imp, mentions_variable]
    tauto
  | case4 found op operands trees ih =>
    rw [ih]
    simp only [List.mem_append, List.mem_cons, or_and_right, exists_or, exists_eq_left,
      mentions_apply]

/-- The names of a tree are those that occur in it. -/
theorem mem_names {name : String} {e : Expr α} : name ∈ e.names ↔ e.Mentions name := by
  simp [names, mem_collectNames]

end Expr

end DecisionDiagrams
