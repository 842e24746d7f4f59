import DecisionDiagrams.Proofs.Compile.Order
import DecisionDiagrams.Proofs.History.Basic
import DecisionDiagrams.Proofs.Loop.Trees

/-! The loop over a tree is the direct recursion over it, also where it fails. -/
namespace DecisionDiagrams

namespace Manager

variable {α : Type} [Scalar α] [LawfulScalar α] {m : Manager α}

/-- The loop over any tree, for any names, ends with the outcome and with the store of the direct
recursion. It always finds the diagrams that it takes from its stack. It goes through the tree from
left to right, so the first fault is reported, unless a number out of range is read before. -/
theorem evaluation_loop_recursive (hm : m.Reachable) (bindings : Bindings)
    (vocabulary : Vocabulary) (e : Expr α) :
    (∀ r, Ends (TreeLoop.step bindings vocabulary) (.start m.store e) r ↔
      r = (Panic.answerTree (m.store.evaluateExpr bindings vocabulary e).1,
        (m.store.evaluateExpr bindings vocabulary e).2)) ∧
    m.evaluate bindings vocabulary e = ((m.store.evaluateExpr bindings vocabulary e).1,
      { m with store := (m.store.evaluateExpr bindings vocabulary e).2 }) ∧
    (∀ s, ¬Ends (TreeLoop.step bindings vocabulary) (.start m.store e) (.error .exhausted, s)) ∧
    m.store.LeftToRight bindings vocabulary e := by
  have hs := hm.wellFormed.store
  have hends := TreeLoop.ends_evaluate hs bindings vocabulary e
  rw [Store.evaluate_eq] at hends
  refine ⟨fun r => hends.iff_eq, ?_, ?_, hs.leftToRight bindings vocabulary e⟩
  · rw [evaluate, Store.evaluate_eq]
  · intro s hexhausted
    have hanswer := congrArg Prod.fst (hexhausted.unique hends)
    exact Panic.answerTree_ne_exhausted _ hanswer.symm

/-- The name is bound out of range, but the operator that would read it is not carried out. -/
theorem evaluation_loop_recursive_of_sum :
    let m := ((initial : Manager Float).indicator "p").2
    let bindings := (∅ : Bindings).insert "p" 99
    let e : Expr Float := .apply .add [.variable "p", .apply .not []]
    m.Reachable ∧ Ends (TreeLoop.step bindings .full) (.start m.store e)
      (.ok (.error (.arityMismatch .not 0)), m.store) := by
  intro m bindings e
  have hm : m.Reachable := ⟨[.indicator "p"], rfl⟩
  have hbound : bindings["p"]? = some 99 := by simp [bindings]
  have hmem : "p" ∈ bindings := by simp [bindings]
  obtain ⟨hends, -, -, horder⟩ := evaluation_loop_recursive hm bindings .full e
  have hfails : Expr.FailsFirst bindings .full [e] [.variable "p"] (.arityMismatch .not 0) := by
    refine ⟨_, _, .operand [] (.later (.variable "p") (.root (.apply .not []) [])), ?_, rfl⟩
    simp [Expr.preorder, Expr.fault?, hmem, Vocabulary.allows, Operator.arity]
  have hfinished : m.store.evaluateAll bindings .full [.variable "p"] = (.ok [99], m.store) := by
    simp [Store.evaluateAll, Store.evaluateExpr, hbound]
  have hrejected := horder.rejected_iff.mpr ⟨_, _, hfails, hfinished⟩
  refine ⟨hm, (hends _).mpr ?_⟩
  rw [hrejected]
  rfl

end Manager

end DecisionDiagrams
