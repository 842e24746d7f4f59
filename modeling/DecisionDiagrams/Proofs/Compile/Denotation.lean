import DecisionDiagrams.Proofs.Compile.Evaluation

/-! The diagram of an expression has the values of the expression, at every point. -/
namespace DecisionDiagrams

open Scalar

/-- What each name is worth at each point. -/
abbrev Environment (α : Type) := (Nat → Bool) → String → Option α

section Denotes

variable {α : Type} [Scalar α]

structure Table.Denotes (t : Table α) (env : Environment α) (e : Expr α) (d : Nat) : Prop where
  lt_size : d < t.size
  value (truth : Nat → Bool) : ∃ x, e.value? (env truth) = some x ∧ Same (t.value truth d) x

/-- Every name of the expression is bound to a diagram that is worth as much. -/
def Table.Binds (t : Table α) (env : Environment α) (bindings : Bindings) (e : Expr α) : Prop :=
  ∀ name, e.Mentions name → ∃ d, bindings[name]? = some d ∧ t.Denotes env (.variable name) d

variable {t t' : Table α} {env : Environment α} {bindings : Bindings} {e : Expr α} {d : Nat}

theorem Table.Denotes.grows (hgrows : t.Grows t') (h : t.Denotes env e d) : t'.Denotes env e d where
  lt_size := hgrows.lt h.lt_size
  value truth := by
    rw [hgrows.value truth h.lt_size]
    exact h.value truth

theorem Table.Binds.grows (hgrows : t.Grows t') (h : t.Binds env bindings e) :
    t'.Binds env bindings e := by
  intro name hname
  obtain ⟨d, hd, hdenotes⟩ := h name hname
  exact ⟨d, hd, hdenotes.grows hgrows⟩

theorem Table.Binds.operand {op : Operator} {operands : List (Expr α)}
    (h : t.Binds env bindings (.apply op operands)) (he : e ∈ operands) :
    t.Binds env bindings e := fun name hname => h name (.operand he hname)

end Denotes

namespace Expr

variable {α : Type} [Scalar α] {env : String → Option α} {op : Operator} {e e' : Expr α} {x y : α}

theorem value?_unary {op' : UnaryOp} (hop : op.operation = .unary op')
    (hx : e.value? env = some x) : (Expr.apply op [e]).value? env = some (op'.compute x) := by
  simp [value?, values?, hx, Operator.result?_unary hop]

theorem value?_binary {op' : BinaryOp} (hop : op.operation = .binary op')
    (hx : e.value? env = some x) (hy : e'.value? env = some y) :
    (Expr.apply op [e, e']).value? env = some (op'.compute x y) := by
  simp [value?, values?, hx, hy, Operator.result?_binary hop]

end Expr

namespace Store

variable {α : Type} [Scalar α] [LawfulScalar α] {levels : Nat} {s : Store α}
  {env : Environment α} {op : Operator}

/-- An operation on diagrams in the table has a result. -/
theorem WellFormed.combine_eq (hs : s.WellFormed levels) {c : Call} (hc : c.InRange s.table.size) :
    ∃ d s', s.combine c = (.ok d, s') ∧ d < s'.table.size ∧
      ∀ truth, Same (s'.table.value truth d) (c.compute (s.table.value truth)) := by
  have hknows := hs.knows_perform hc
  refine ⟨(s.perform c).1, (s.perform c).2, ?_, hknows.settled.lt_size, fun truth => ?_⟩
  · rw [Store.combine, perform?_of_inRange hc]
  · rw [hs.value_perform hc]
    exact same_canonical _

theorem WellFormed.combine_unary (hs : s.WellFormed levels) {op' : UnaryOp}
    (hop : op.operation = .unary op') {e : Expr α} {d : Nat} (h : s.table.Denotes env e d) :
    ∃ r s', s.combine (.unary op' d) = (.ok r, s') ∧
      s'.table.Denotes env (.apply op [e]) r := by
  obtain ⟨r, s', hcombine, hr, hvalue⟩ := hs.combine_eq (c := .unary op' d) h.lt_size
  refine ⟨r, s', hcombine, hr, fun truth => ?_⟩
  obtain ⟨x, hx, hsame⟩ := h.value truth
  exact ⟨_, Expr.value?_unary hop hx, (hvalue truth).trans (op'.compute_congr hsame)⟩

theorem WellFormed.combine_binary (hs : s.WellFormed levels) {op' : BinaryOp}
    (hop : op.operation = .binary op') {e e' : Expr α} {d d' : Nat}
    (h : s.table.Denotes env e d) (h' : s.table.Denotes env e' d') :
    ∃ r s', s.combine (.binary op' d d') = (.ok r, s') ∧
      s'.table.Denotes env (.apply op [e, e']) r := by
  obtain ⟨r, s', hcombine, hr, hvalue⟩ :=
    hs.combine_eq (c := .binary op' d d') ⟨h.lt_size, h'.lt_size⟩
  refine ⟨r, s', hcombine, hr, fun truth => ?_⟩
  obtain ⟨x, hx, hsame⟩ := h.value truth
  obtain ⟨y, hy, hsame'⟩ := h'.value truth
  exact ⟨_, Expr.value?_binary hop hx hy, (hvalue truth).trans (op'.compute_congr hsame hsame')⟩

/-- The evaluation of a tree whose operators are allowed and have their operands, and whose names
are bound, comes to a diagram of the tree. -/
theorem WellFormed.evaluateExpr_denotes (hs : s.WellFormed levels) {bindings : Bindings}
    (vocabulary : Vocabulary) {e : Expr α} (harity : e.ArityCorrect)
    (hallows : ∀ op, e.Uses op → vocabulary.allows op = true)
    (hbinds : s.table.Binds env bindings e) :
    ∃ d s', s.evaluateExpr bindings vocabulary e = (.ok d, s') ∧ s'.table.Denotes env e d := by
  induction harity generalizing s with
  | literal x =>
    have hputs := hs.table.terminal x
    refine ⟨_, _, by rw [Store.evaluateExpr], hputs.lt_size, fun truth => ⟨x, rfl, ?_⟩⟩
    rw [show (s.constant x).2.table.value truth (s.constant x).1 = canonical x from
      Table.value_terminal hputs.node truth]
    exact same_canonical x
  | «variable» name =>
    obtain ⟨d, hd, hdenotes⟩ := hbinds name .variable
    exact ⟨d, s, by rw [Store.evaluateExpr, hd], hdenotes⟩
  | @apply op operands hlength hoperands ih =>
    have hop : ¬(!vocabulary.allows op) = true := by simp [hallows op (.root operands)]
    have hoperand {e : Expr α} (he : e ∈ operands) (op' : Operator) (h : e.Uses op') :
        vocabulary.allows op' = true := hallows op' (.operand he h)
    rcases Operator.one_or_two_operands hlength with
      ⟨op', e, hop', rfl, hone⟩ | ⟨op', e, e', hop', rfl, htwo⟩
    · have he : e ∈ [e] := List.mem_singleton_self e
      obtain ⟨d, s', heval, hd⟩ := ih e he hs (hoperand he) (hbinds.operand he)
      have hs' := hs.keeps_of_evaluateExpr heval
      simp only [evaluateExpr_apply hop, hone, heval]
      exact hs'.wellFormed.combine_unary hop' hd
    · have he : e ∈ [e, e'] := List.mem_cons_self
      have he' : e' ∈ [e, e'] := List.mem_cons_of_mem e (List.mem_singleton_self e')
      obtain ⟨d, s', heval, hd⟩ := ih e he hs (hoperand he) (hbinds.operand he)
      have hs' := hs.keeps_of_evaluateExpr heval
      obtain ⟨d', s'', heval', hd'⟩ := ih e' he' hs'.wellFormed (hoperand he')
        ((hbinds.operand he').grows hs'.grows)
      have hs'' := hs'.wellFormed.keeps_of_evaluateExpr heval'
      simp only [evaluateExpr_apply hop, htwo, heval, heval']
      exact hs''.wellFormed.combine_binary hop' (hd.grows hs''.grows) hd'

end Store

end DecisionDiagrams
