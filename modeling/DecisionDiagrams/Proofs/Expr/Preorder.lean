import DecisionDiagrams.Proofs.Expr.Meaning

/-! The operators of a tree in the order in which a reader meets them, and what the value of a
tree depends on. -/
namespace DecisionDiagrams

namespace Expr

variable {α : Type}

mutual

def operators : Expr α → List Operator
  | .literal _ => []
  | .variable _ => []
  | .apply op operands => op :: operatorsAll operands

def operatorsAll : List (Expr α) → List Operator
  | [] => []
  | tree :: trees => operators tree ++ operatorsAll trees

end

theorem mem_operatorsAll {op : Operator} {trees : List (Expr α)} :
    op ∈ operatorsAll trees ↔ ∃ e ∈ trees, op ∈ e.operators := by
  induction trees with
  | nil => simp [operatorsAll]
  | cons tree trees ih => simp [operatorsAll, ih]

theorem mem_operators_of_uses {op : Operator} {e : Expr α} (h : e.Uses op) :
    op ∈ e.operators := by
  induction h with
  | root operands => rw [operators]; exact List.mem_cons_self
  | operand he _ ih =>
    rw [operators]
    exact List.mem_cons_of_mem _ (mem_operatorsAll.mpr ⟨_, he, ih⟩)

variable [Scalar α] {env env' : String → Option α}

mutual

/-- The value of a tree depends only on the values of the names that occur in it. -/
theorem value?_congr {e : Expr α} (h : ∀ name, e.Mentions name → env name = env' name) :
    e.value? env = e.value? env' := by
  cases e with
  | literal x => rfl
  | «variable» name => exact h name .variable
  | apply op operands =>
    rw [value?, value?, values?_congr fun e he name hname => h name (.operand he hname)]

theorem values?_congr {trees : List (Expr α)}
    (h : ∀ e ∈ trees, ∀ name, e.Mentions name → env name = env' name) :
    values? env trees = values? env' trees := by
  cases trees with
  | nil => rfl
  | cons tree trees =>
    rw [values?, values?, value?_congr (h tree List.mem_cons_self),
      values?_congr fun e he => h e (List.mem_cons_of_mem tree he)]

end

end Expr

end DecisionDiagrams
