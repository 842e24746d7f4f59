import DecisionDiagrams.Proofs.Compile.Evaluation
import DecisionDiagrams.Proofs.History.Basic
import DecisionDiagrams.Proofs.Scalar.Sign

/-! Operations are pointwise. Whatever has been asked of a manager before, an operation on diagrams
gives the diagram whose value is the result of the operation on the values of the operands, under
every assignment. -/
namespace DecisionDiagrams

open Scalar

/-- The operator that an operation of two operands carries out. -/
def BinaryOp.operator : BinaryOp → Operator
  | add => .add
  | subtract => .subtract
  | multiply => .multiply
  | divide => .divide
  | and => .and
  | or => .or

theorem BinaryOp.operation_operator (op : BinaryOp) : op.operator.operation = .binary op := by
  cases op <;> rfl

/-- Truth values are no NaNs. -/
theorem Scalar.Same.eq_ofBool {α : Type} [Scalar α] [LawfulScalar α] {x : α} {b : Bool}
    (h : Same x (ofBool b)) : x = ofBool b := by
  rcases h with h | ⟨-, hnan⟩
  · exact h
  · rw [isNaN_ofBool] at hnan
    cases hnan

namespace Manager

variable {α : Type} [Scalar α] [LawfulScalar α] {m : Manager α}

/-- A call on diagrams in the table has a result in the table, with the value of the call
everywhere. -/
theorem WellFormed.exists_performed (hm : m.WellFormed) {c : Call} (hc : c.InRange m.nodeCount) :
    ∃ d m', m.perform? c = (some d, m') ∧ m.Keeps m' ∧ d < m'.table.size ∧ ∀ a : Assignment,
      Same (m'.table.value a.truth d) (c.compute (m.table.value a.truth)) := by
  have hkeeps := hm.perform? c
  have hperform : m.perform? c =
      (some (m.store.perform c).1, { m with store := (m.store.perform c).2 }) := by
    rw [Manager.perform?, Store.perform?_of_inRange hc]
  rw [hperform] at hkeeps
  refine ⟨_, _, hperform, hkeeps, (hm.store.knows_perform hc).settled.lt_size, fun a => ?_⟩
  rw [show Manager.table { m with store := (m.store.perform c).2 } =
    (m.store.perform c).2.table from rfl, hm.store.value_perform hc a.truth]
  exact same_canonical _

theorem WellFormed.exists_perform? (hm : m.WellFormed) {c : Call} (hc : c.InRange m.nodeCount) :
    ∃ d m', m.perform? c = (some d, m') ∧ ∀ a : Assignment, ∃ z,
      m'.value? a d = some z ∧ Same z (c.compute (m.table.value a.truth)) := by
  obtain ⟨d, m', hperform, -, hd, hvalue⟩ := hm.exists_performed hc
  exact ⟨d, m', hperform, fun a => ⟨_, value?_of_lt hd a, hvalue a⟩⟩

/-- Operations on diagrams are the operations on their values, under every assignment, also one
that leaves out levels. A NaN counts as true, and the zeros of either sign as false. -/
theorem operations_pointwise (hm : m.Reachable) {f g : Nat} (hf : m.contains f = true)
    (hg : m.contains g = true) :
    (∀ op : BinaryOp, ∃ d m', m.combine op f g = (some d, m') ∧ ∀ a : Assignment, ∃ x y z w,
      m.value? a f = some x ∧ m.value? a g = some y ∧ m'.value? a d = some z ∧
        op.operator.result? [x, y] = some w ∧ Same z w) ∧
    (∃ d m', m.negate f = (some d, m') ∧ ∀ a : Assignment, ∃ x z,
      m.value? a f = some x ∧ m'.value? a d = some z ∧ Same z (Scalar.negate x)) ∧
    (∃ d m', m.complement f = (some d, m') ∧ ∀ a : Assignment, ∃ x z,
      m.value? a f = some x ∧ m'.value? a d = some z ∧ z = if isZero x = true then one else zero) ∧
    (∀ x : α, isNaN x = true → isZero x = false) ∧ TwoZeros Float ∧ TwoZeros Float32 := by
  have hwell := hm.wellFormed
  have hf' := lt_of_contains hf
  have hg' := lt_of_contains hg
  refine ⟨fun op => ?_, ?_, ?_, LawfulScalar.isZero_of_isNaN, twoZeros_float, twoZeros_float32⟩
  · obtain ⟨d, m', hperform, hvalue⟩ := hwell.exists_perform? (c := .binary op f g) ⟨hf', hg'⟩
    refine ⟨d, m', hperform, fun a => ?_⟩
    obtain ⟨z, hz, hsame⟩ := hvalue a
    exact ⟨_, _, z, _, value?_of_lt hf' a, value?_of_lt hg' a, hz,
      Operator.result?_binary op.operation_operator _ _, hsame⟩
  · obtain ⟨d, m', hperform, hvalue⟩ := hwell.exists_perform? (c := .unary .negate f) hf'
    refine ⟨d, m', hperform, fun a => ?_⟩
    obtain ⟨z, hz, hsame⟩ := hvalue a
    exact ⟨_, z, value?_of_lt hf' a, hz, hsame⟩
  · obtain ⟨d, m', hperform, hvalue⟩ := hwell.exists_perform? (c := .unary .complement f) hf'
    refine ⟨d, m', hperform, fun a => ?_⟩
    obtain ⟨z, hz, hsame⟩ := hvalue a
    refine ⟨_, z, value?_of_lt hf' a, hz, ?_⟩
    rw [hsame.eq_ofBool, Scalar.isTrue, Bool.not_not]
    rfl

theorem division_by_negative_zero_pointwise :
    let m := (((initial : Manager Float).indicator "p").2.constant (-0)).2
    let p := ((initial : Manager Float).indicator "p").1
    let g := (((initial : Manager Float).indicator "p").2.constant (-0)).1
    m.Reachable ∧ m.contains p = true ∧ m.contains g = true ∧
      (∃ d m', m.combine .divide p g = (some d, m') ∧ ∀ a : Assignment, ∃ x y z w,
        m.value? a p = some x ∧ m.value? a g = some y ∧ m'.value? a d = some z ∧
          Operator.divide.result? [x, y] = some w ∧ Same z w) ∧
      isZero (-0 : Float) = true := by
  intro m p g
  have hm : m.Reachable := ⟨[.indicator "p", .constant (-0)], rfl⟩
  have hputs := (initial_wellFormed (α := Float)).puts_indicator "p"
  have hconstant := ((initial_wellFormed (α := Float)).indicator "p").wellFormed.puts_constant (-0)
  have hp : m.contains p = true := decide_eq_true (hconstant.grows.lt hputs.lt_size)
  have hg : m.contains g = true := decide_eq_true hconstant.lt_size
  obtain ⟨hbinary, -, -, -, hzeros, -⟩ := operations_pointwise hm hp hg
  exact ⟨hm, hp, hg, hbinary .divide, (hzeros (-0)).mpr (.inr (by decide))⟩

end Manager

end DecisionDiagrams
