import DecisionDiagrams.Compile.Tree
import DecisionDiagrams.Proofs.Diagram.Manager
import DecisionDiagrams.Proofs.Expr.Meaning

/-! The evaluation of a tree with waiting operators is the direct recursion over the tree. -/
namespace DecisionDiagrams

namespace Operator

variable {α : Type} {op : Operator}

theorem result?_unary [Scalar α] {op' : UnaryOp} (h : op.operation = .unary op') (x : α) :
    op.result? [x] = some (op'.compute x) := by
  cases op <;> cases h
  · rfl
  · cases hx : Scalar.isZero x <;> simp [result?, UnaryOp.compute, Scalar.isTrue, Scalar.ofBool, hx]

theorem result?_binary [Scalar α] {op' : BinaryOp} (h : op.operation = .binary op') (x y : α) :
    op.result? [x, y] = some (op'.compute x y) := by
  cases op <;> cases h
  iterate 4 rfl
  · cases hx : Scalar.isZero x <;> cases hy : Scalar.isZero y <;>
      simp [result?, BinaryOp.compute, Scalar.isTrue, Scalar.ofBool, hx, hy]
  · cases hx : Scalar.isZero x <;> cases hy : Scalar.isZero y <;>
      simp [result?, BinaryOp.compute, Scalar.isTrue, Scalar.ofBool, hx, hy]

variable {operands : List (Expr α)}

/-- As many operands as an operator takes are one or two. -/
theorem one_or_two_operands (h : operands.length = op.arity) :
    (∃ op' e, op.operation = .unary op' ∧ operands = [e] ∧
        op.operands? operands = some (.one op' e)) ∨
      ∃ op' e e', op.operation = .binary op' ∧ operands = [e, e'] ∧
        op.operands? operands = some (.two op' e e') := by
  cases hop : op.operation with
  | unary op' =>
    have harity : op.arity = 1 := by cases op <;> simp [operation] at hop <;> rfl
    obtain ⟨e, rfl⟩ := List.length_eq_one_iff.mp (h.trans harity)
    exact .inl ⟨op', e, rfl, rfl, by simp only [operands?, hop]⟩
  | binary op' =>
    have harity : op.arity = 2 := by cases op <;> simp [operation] at hop <;> rfl
    obtain ⟨e, e', rfl⟩ := List.length_eq_two.mp (h.trans harity)
    exact .inr ⟨op', e, e', rfl, rfl, by simp only [operands?, hop]⟩

theorem of_operands?_one {op' : UnaryOp} {e : Expr α}
    (h : op.operands? operands = some (.one op' e)) :
    op.operation = .unary op' ∧ operands = [e] := by
  unfold operands? at h
  split at h <;> cases h
  next hop => exact ⟨hop, rfl⟩

theorem of_operands?_two {op' : BinaryOp} {e e' : Expr α}
    (h : op.operands? operands = some (.two op' e e')) :
    op.operation = .binary op' ∧ operands = [e, e'] := by
  unfold operands? at h
  split at h <;> cases h
  next hop => exact ⟨hop, rfl⟩

theorem length_eq_arity_iff : operands.length = op.arity ↔ op.operands? operands ≠ none := by
  constructor
  · intro h
    rcases one_or_two_operands h with ⟨_, _, -, -, hone⟩ | ⟨_, _, _, -, -, htwo⟩
    · simp [hone]
    · simp [htwo]
  · intro h
    cases hop : op.operands? operands with
    | none => exact absurd hop h
    | some o =>
      cases o with
      | one op' e =>
        obtain ⟨hoperation, rfl⟩ := of_operands?_one hop
        cases op <;> cases hoperation <;> rfl
      | two op' e e' =>
        obtain ⟨hoperation, rfl⟩ := of_operands?_two hop
        cases op <;> cases hoperation <;> rfl

end Operator

namespace Store

variable {α : Type} [Scalar α]

def combine (s : Store α) (c : Call) : Except Failure Nat × Store α :=
  match s.perform? c with
  | (some d, s) => (.ok d, s)
  | (none, s) => (.error .outOfRange, s)

/-- The evaluation of a tree by direct recursion. An operator is checked first, then it gets the
diagrams of its operands from left to right, and combines them. -/
def evaluateExpr (s : Store α) (bindings : Bindings) (vocabulary : Vocabulary) :
    Expr α → Except Failure Nat × Store α
  | .literal x => (.ok (s.constant x).1, (s.constant x).2)
  | .variable name =>
    match bindings[name]? with
    | some d => (.ok d, s)
    | none => (.error (.rejected (.unresolvedVariables [name])), s)
  | .apply op operands =>
    if !vocabulary.allows op then (.error (.rejected (.operatorNotAllowed op)), s)
    else
      match _h : op.operands? operands with
      | none => (.error (.rejected (.arityMismatch op operands.length)), s)
      | some (.one op e) =>
        match s.evaluateExpr bindings vocabulary e with
        | (.ok d, s) => s.combine (.unary op d)
        | (.error failure, s) => (.error failure, s)
      | some (.two op e e') =>
        match s.evaluateExpr bindings vocabulary e with
        | (.ok d, s) =>
          match s.evaluateExpr bindings vocabulary e' with
          | (.ok d', s) => s.combine (.binary op d d')
          | (.error failure, s) => (.error failure, s)
        | (.error failure, s) => (.error failure, s)
termination_by e => e.size
decreasing_by
  · have := Operator.size_of_operands?_eq_one _h
    simp only [Expr.size]; omega
  · have := Operator.size_of_operands?_eq_two _h
    simp only [Expr.size]; omega
  · have := Operator.size_of_operands?_eq_two _h
    simp only [Expr.size]; omega

section Steps

variable {bindings : Bindings} {vocabulary : Vocabulary} {s : Store α} {op : Operator}
  {operands : List (Expr α)} {pending : List (Pending α)}

theorem evaluateFrom_apply (hallows : ¬(!vocabulary.allows op) = true) :
    evaluateFrom bindings vocabulary s (.tree (.apply op operands)) pending =
      match op.operands? operands with
      | none => (.error (.rejected (.arityMismatch op operands.length)), s)
      | some (.one op e) => evaluateFrom bindings vocabulary s (.tree e) (.only op :: pending)
      | some (.two op e e') =>
        evaluateFrom bindings vocabulary s (.tree e) (.left op e' :: pending) := by
  rw [evaluateFrom, if_neg hallows]
  split
  next h => rw [h]
  next h => rw [h]
  next h => rw [h]

theorem evaluateFrom_only (op : UnaryOp) (d : Nat) :
    evaluateFrom bindings vocabulary s (.diagram d) (.only op :: pending) =
      match s.combine (.unary op d) with
      | (.ok d, s) => evaluateFrom bindings vocabulary s (.diagram d) pending
      | (.error failure, s) => (.error failure, s) := by
  rw [evaluateFrom, combine]
  rcases s.perform? (.unary op d) with ⟨_ | r, s'⟩
  · rfl
  · rfl

theorem evaluateFrom_right (op : BinaryOp) (d d' : Nat) :
    evaluateFrom bindings vocabulary s (.diagram d') (.right op d :: pending) =
      match s.combine (.binary op d d') with
      | (.ok d, s) => evaluateFrom bindings vocabulary s (.diagram d) pending
      | (.error failure, s) => (.error failure, s) := by
  rw [evaluateFrom, combine]
  rcases s.perform? (.binary op d d') with ⟨_ | r, s'⟩
  · rfl
  · rfl

theorem evaluateExpr_apply (hallows : ¬(!vocabulary.allows op) = true) :
    s.evaluateExpr bindings vocabulary (.apply op operands) =
      match op.operands? operands with
      | none => (.error (.rejected (.arityMismatch op operands.length)), s)
      | some (.one op e) =>
        match s.evaluateExpr bindings vocabulary e with
        | (.ok d, s) => s.combine (.unary op d)
        | (.error failure, s) => (.error failure, s)
      | some (.two op e e') =>
        match s.evaluateExpr bindings vocabulary e with
        | (.ok d, s) =>
          match s.evaluateExpr bindings vocabulary e' with
          | (.ok d', s) => s.combine (.binary op d d')
          | (.error failure, s) => (.error failure, s)
        | (.error failure, s) => (.error failure, s) := by
  rw [evaluateExpr, if_neg hallows]
  split
  next h => rw [h]
  next h => rw [h]
  next h => rw [h]

end Steps

/-- The waiting operators of an evaluation are where the recursion returns to. -/
theorem evaluateFrom_tree (bindings : Bindings) (vocabulary : Vocabulary) (s : Store α)
    (e : Expr α) (pending : List (Pending α)) :
    evaluateFrom bindings vocabulary s (.tree e) pending =
      match s.evaluateExpr bindings vocabulary e with
      | (.ok d, s) => evaluateFrom bindings vocabulary s (.diagram d) pending
      | (.error failure, s) => (.error failure, s) := by
  fun_induction s.evaluateExpr bindings vocabulary e generalizing pending with
  | case1 s x => rw [evaluateFrom]
  | case2 s name d hname => rw [evaluateFrom]; simp only [hname]
  | case3 s name hname => rw [evaluateFrom]; simp only [hname]
  | case4 s op operands h => rw [evaluateFrom, if_pos h]
  | case5 s op operands h hnone => rw [evaluateFrom_apply h, hnone]
  | case6 s op operands h op' e hone d s' heval ih =>
    simp only [evaluateFrom_apply h, hone, ih, heval]
    exact evaluateFrom_only op' d
  | case7 s op operands h op' e hone failure s' heval ih =>
    simp only [evaluateFrom_apply h, hone, ih, heval]
  | case8 s op operands h op' e e' htwo d s' heval d' s'' heval' ih ih' =>
    simp only [evaluateFrom_apply h, htwo, ih, heval]
    rw [evaluateFrom, ih', heval']
    exact evaluateFrom_right op' d d'
  | case9 s op operands h op' e e' htwo d s' heval failure s'' heval' ih ih' =>
    simp only [evaluateFrom_apply h, htwo, ih, heval]
    rw [evaluateFrom, ih', heval']
  | case10 s op operands h op' e e' htwo failure s' heval ih =>
    simp only [evaluateFrom_apply h, htwo, ih, heval]

theorem evaluate_eq (bindings : Bindings) (vocabulary : Vocabulary) (s : Store α) (e : Expr α) :
    s.evaluate bindings vocabulary e = s.evaluateExpr bindings vocabulary e := by
  rw [evaluate, evaluateFrom_tree]
  split
  next heval => rw [evaluateFrom, heval]
  next heval => rw [heval]

variable [LawfulScalar α] {levels : Nat} {s : Store α}

theorem WellFormed.combine (hs : s.WellFormed levels) (c : Call) :
    Keeps levels s (s.combine c).2 := by
  have hkeeps := hs.perform? c
  rw [Store.combine]
  split
  next h => rw [h] at hkeeps; exact hkeeps
  next h => rw [h] at hkeeps; exact hkeeps

theorem WellFormed.keeps_of_combine (hs : s.WellFormed levels) {s' : Store α} {c : Call}
    {result : Except Failure Nat} (h : s.combine c = (result, s')) : Keeps levels s s' := by
  have hkeeps := hs.combine c
  rwa [h] at hkeeps

/-- An evaluation keeps the store well-formed, also one that fails on its way. -/
theorem WellFormed.evaluateExpr (hs : s.WellFormed levels) (bindings : Bindings)
    (vocabulary : Vocabulary) (e : Expr α) :
    Keeps levels s (s.evaluateExpr bindings vocabulary e).2 := by
  fun_induction Store.evaluateExpr s bindings vocabulary e with
  | case1 s x => exact hs.constant x
  | case2 s name d hname => exact hs.keeps
  | case3 s name hname => exact hs.keeps
  | case4 s op operands h => exact hs.keeps
  | case5 s op operands h hnone => exact hs.keeps
  | case6 s op operands h op' e hone d s' heval ih =>
    rw [heval] at ih
    exact (ih hs).trans ((ih hs).wellFormed.combine _)
  | case7 s op operands h op' e hone failure s' heval ih =>
    rw [heval] at ih
    exact ih hs
  | case8 s op operands h op' e e' htwo d s' heval d' s'' heval' ih ih' =>
    rw [heval] at ih
    rw [heval'] at ih'
    have hs'' := (ih hs).trans (ih' (ih hs).wellFormed)
    exact hs''.trans (hs''.wellFormed.combine _)
  | case9 s op operands h op' e e' htwo d s' heval failure s'' heval' ih ih' =>
    rw [heval] at ih
    rw [heval'] at ih'
    exact (ih hs).trans (ih' (ih hs).wellFormed)
  | case10 s op operands h op' e e' htwo failure s' heval ih =>
    rw [heval] at ih
    exact ih hs

theorem WellFormed.keeps_of_evaluateExpr (hs : s.WellFormed levels) {s' : Store α}
    {bindings : Bindings} {vocabulary : Vocabulary} {e : Expr α} {result : Except Failure Nat}
    (h : s.evaluateExpr bindings vocabulary e = (result, s')) : Keeps levels s s' := by
  have hkeeps := hs.evaluateExpr bindings vocabulary e
  rwa [h] at hkeeps

end Store

end DecisionDiagrams
