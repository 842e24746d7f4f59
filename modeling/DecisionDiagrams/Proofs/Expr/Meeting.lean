import DecisionDiagrams.Compile.Tree

/-! The nodes of trees in preorder. At each of them it is known which nodes were met before it, and
which of the trees around it are complete by then. -/
namespace DecisionDiagrams

namespace Expr

variable {α : Type}

mutual

/-- The nodes of a tree in preorder, from left to right, each as the tree below it. -/
def preorder : Expr α → List (Expr α)
  | .literal x => [.literal x]
  | .variable name => [.variable name]
  | .apply op operands => .apply op operands :: preorderAll operands

def preorderAll : List (Expr α) → List (Expr α)
  | [] => []
  | tree :: trees => preorder tree ++ preorderAll trees

end

/-- In the trees, the node is met after the nodes `earlier`, when the trees `finished` to the left
of it and of the nodes above it are complete. -/
inductive Meets : List (Expr α) → List (Expr α) → List (Expr α) → Expr α → Prop where
  | root (node : Expr α) (trees : List (Expr α)) : Meets (node :: trees) [] [] node
  | operand {op : Operator} {operands earlier finished : List (Expr α)} {node : Expr α}
      (trees : List (Expr α)) (h : Meets operands earlier finished node) :
      Meets (.apply op operands :: trees) (.apply op operands :: earlier) finished node
  | later {trees earlier finished : List (Expr α)} {node : Expr α} (tree : Expr α)
      (h : Meets trees earlier finished node) :
      Meets (tree :: trees) (tree.preorder ++ earlier) (tree :: finished) node

variable {trees earlier finished : List (Expr α)} {node : Expr α}

theorem Meets.append (h : Meets trees earlier finished node) (trees' : List (Expr α)) :
    Meets (trees ++ trees') earlier finished node := by
  induction h with
  | root node trees => exact .root node (trees ++ trees')
  | operand trees h _ => exact .operand (trees ++ trees') h
  | later tree _ ih => exact .later tree ih

theorem Meets.preorderAll_eq (h : Meets trees earlier finished node) :
    ∃ rest, preorderAll trees = earlier ++ node :: rest := by
  induction h with
  | root node trees =>
    cases node with
    | literal x => exact ⟨_, rfl⟩
    | «variable» name => exact ⟨_, rfl⟩
    | apply op operands => exact ⟨_, rfl⟩
  | operand trees _ ih =>
    obtain ⟨rest, hrest⟩ := ih
    refine ⟨rest ++ preorderAll trees, ?_⟩
    rw [preorderAll, preorder, hrest, List.cons_append, List.cons_append, List.append_assoc,
      List.cons_append]
  | later tree _ ih =>
    obtain ⟨rest, hrest⟩ := ih
    exact ⟨rest, by rw [preorderAll, hrest, List.append_assoc]⟩

/-- The trees that are complete have been met as a whole. -/
theorem Meets.mem_earlier (h : Meets trees earlier finished node) {e : Expr α}
    (he : e ∈ preorderAll finished) : e ∈ earlier := by
  induction h with
  | root node trees => cases he
  | operand trees _ ih => exact List.mem_cons_of_mem _ (ih he)
  | later tree _ ih =>
    rw [preorderAll, List.mem_append] at he
    exact List.mem_append.mpr (he.imp_right ih)

mutual

theorem exists_meets_tree (tree : Expr α) {earlier rest : List (Expr α)} {node : Expr α}
    (h : tree.preorder = earlier ++ node :: rest) :
    ∃ finished, Meets [tree] earlier finished node := by
  cases tree with
  | literal x =>
    cases earlier with
    | nil => cases h; exact ⟨[], .root _ _⟩
    | cons _ _ => simp [preorder] at h
  | «variable» name =>
    cases earlier with
    | nil => cases h; exact ⟨[], .root _ _⟩
    | cons _ _ => simp [preorder] at h
  | apply op operands =>
    cases earlier with
    | nil => cases h; exact ⟨[], .root _ _⟩
    | cons first earlier =>
      obtain ⟨rfl, hrest⟩ := List.cons.inj h
      obtain ⟨finished, hmeets⟩ := exists_meets operands hrest
      exact ⟨finished, .operand [] hmeets⟩

/-- Every node of a preorder is met there. -/
theorem exists_meets (trees : List (Expr α)) {earlier rest : List (Expr α)} {node : Expr α}
    (h : preorderAll trees = earlier ++ node :: rest) :
    ∃ finished, Meets trees earlier finished node := by
  cases trees with
  | nil => simp [preorderAll] at h
  | cons tree trees =>
    rcases List.append_eq_append_iff.mp h with ⟨middle, rfl, hrest⟩ | ⟨middle, htree, hrest⟩
    · obtain ⟨finished, hmeets⟩ := exists_meets trees hrest
      exact ⟨tree :: finished, .later tree hmeets⟩
    · cases middle with
      | nil =>
        rw [List.append_nil] at htree
        subst htree
        have hfirst : preorderAll trees = [] ++ node :: rest := hrest.symm
        obtain ⟨finished, hmeets⟩ := exists_meets trees hfirst
        exact ⟨tree :: finished, List.append_nil tree.preorder ▸ hmeets.later tree⟩
      | cons first middle =>
        obtain ⟨rfl, -⟩ := List.cons.inj hrest
        obtain ⟨finished, hmeets⟩ := exists_meets_tree tree htree
        exact ⟨finished, hmeets.append trees⟩

end

/-- Why a node has no diagram whatever is below it: a name that is not bound, or an operator that is
not allowed or has not as many operands as it takes. -/
def fault? (bindings : Bindings) (vocabulary : Vocabulary) : Expr α → Option CompileError
  | .literal _ => none
  | .variable name =>
    if bindings[name]?.isNone then some (.unresolvedVariables [name]) else none
  | .apply op operands =>
    if !vocabulary.allows op then some (.operatorNotAllowed op)
    else if operands.length ≠ op.arity then some (.arityMismatch op operands.length)
    else none

variable {bindings : Bindings} {vocabulary : Vocabulary}

theorem of_fault?_eq_none {op : Operator} {operands : List (Expr α)}
    (h : (apply op operands).fault? bindings vocabulary = none) :
    ¬(!vocabulary.allows op) = true ∧ operands.length = op.arity := by
  rw [fault?] at h
  split at h
  next => cases h
  next hallows =>
    split at h
    next => cases h
    next hlength => exact ⟨hallows, Decidable.not_not.mp hlength⟩

/-- The first node with a fault has this one, and is met when the trees `finished` are complete. -/
def FailsFirst (bindings : Bindings) (vocabulary : Vocabulary) (trees finished : List (Expr α))
    (error : CompileError) : Prop :=
  ∃ earlier node, Meets trees earlier finished node ∧
    (∀ e ∈ earlier, e.fault? bindings vocabulary = none) ∧
    node.fault? bindings vocabulary = some error

theorem exists_failsFirst_iff {error : CompileError} :
    (∃ finished, FailsFirst bindings vocabulary trees finished error) ↔
      (preorderAll trees).findSome? (fault? bindings vocabulary) = some error := by
  rw [List.findSome?_eq_some_iff]
  constructor
  · rintro ⟨finished, earlier, node, hmeets, hearlier, hnode⟩
    obtain ⟨rest, hrest⟩ := hmeets.preorderAll_eq
    exact ⟨earlier, node, rest, hrest, hnode, hearlier⟩
  · rintro ⟨earlier, node, rest, hrest, hnode, hearlier⟩
    obtain ⟨finished, hmeets⟩ := exists_meets trees hrest
    exact ⟨finished, earlier, node, hmeets, hearlier, hnode⟩

end Expr

end DecisionDiagrams
