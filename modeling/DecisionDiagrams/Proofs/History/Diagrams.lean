import DecisionDiagrams.Proofs.History.Basic
import DecisionDiagrams.Proofs.Scalar.Float

/-! Diagrams of a manager with any history. Two of them are the same diagram if they have the
same values, and operations on them come to what the plain expansion comes to. -/
namespace DecisionDiagrams

open Scalar

namespace Manager

variable {α : Type} [Scalar α] [LawfulScalar α] {m : Manager α}

/-- Constants that are made one after the other are the same diagram if they have the same value,
whatever is asked in between. -/
theorem WellFormed.constant_eq_iff (hm : m.WellFormed) (x y : α) {requests : List (Request α)}
    (h : ∀ r ∈ requests, r ≠ .clear) :
    (m.constant x).1 = (((m.constant x).2.afterAll requests).constant y).1 ↔ Same x y := by
  have hfirst := hm.puts_constant x
  have hkeeps := (hm.constant x).wellFormed.keeps_afterAll h
  have hsecond := hkeeps.wellFormed.puts_constant y
  have hgrows := hkeeps.grows.table.trans hsecond.grows
  have hnode := (hgrows.node hfirst.lt_size).trans hfirst.node
  rw [← canonical_eq_iff]
  constructor
  · intro heq
    rw [heq, hsecond.node] at hnode
    exact (Node.terminal.inj hnode).symm
  · intro heq
    refine hsecond.wellFormed.node_injective (hgrows.lt hfirst.lt_size) hsecond.lt_size ?_
    rw [hnode, hsecond.node, heq]

/-- Two diagrams are the same exactly if they have the same values, and two constants exactly if
they have the same value. -/
theorem diagrams_canonical (hm : m.Reachable) :
    (∀ f g, m.contains f = true → m.contains g = true →
      (f = g ↔ ∀ a : Assignment, ∃ x y,
        m.value? a f = some x ∧ m.value? a g = some y ∧ Same x y)) ∧
    ∀ (x y : α) (requests : List (Request α)), (∀ r ∈ requests, r ≠ .clear) →
      ((m.constant x).1 = (((m.constant x).2.afterAll requests).constant y).1 ↔ Same x y) := by
  refine ⟨fun f g hf hg => ?_, fun x y requests h => hm.wellFormed.constant_eq_iff x y h⟩
  rw [hm.wellFormed.table.eq_iff_same (lt_of_contains hf) (lt_of_contains hg)]
  refine forall_congr' fun a => ?_
  rw [value?_of_lt (lt_of_contains hf), value?_of_lt (lt_of_contains hg)]
  simp

theorem indicator_canonical :
    let m := ((initial : Manager Float).indicator "p").2
    let p := ((initial : Manager Float).indicator "p").1
    m.Reachable ∧ m.contains p = true ∧ m.contains Table.one = true ∧
      (p = Table.one ↔ ∀ a : Assignment, ∃ x y,
        m.value? a p = some x ∧ m.value? a Table.one = some y ∧ Same x y) ∧
      ((m.constant 0).1 = (((m.constant 0).2.afterAll [.indicator "q"]).constant (-0)).1 ↔
        Same (0 : Float) (-0)) := by
  intro m p
  have hm : m.Reachable := ⟨[.indicator "p"], rfl⟩
  have hp : m.contains p = true :=
    decide_eq_true (initial_wellFormed.puts_indicator "p").lt_size
  have hone : m.contains Table.one = true := decide_eq_true hm.wellFormed.table.one_lt_size
  have hcanonical := diagrams_canonical hm
  exact ⟨hm, hp, hone, hcanonical.1 p Table.one hp hone,
    hcanonical.2 0 (-0) [.indicator "q"] (by simp)⟩

/-- An operation has the result of its plain expansion, and leaves the table that the expansion
leaves. -/
theorem operations_expand_plainly (hm : m.Reachable) {c : Call} (hc : c.InRange m.nodeCount) :
    ∃ memo, m.perform? c =
      (some (m.table.expand c).1, ⟨⟨(m.table.expand c).2, memo⟩, m.vars⟩) := by
  obtain ⟨-, hresult, htable⟩ := hm.wellFormed.store.perform hc
  refine ⟨(m.store.perform c).2.memo, ?_⟩
  rw [perform?, Store.perform?_of_inRange hc, hresult]
  exact Prod.ext rfl (congrArg (Manager.mk · m.vars) (congrArg (Store.mk · _) htable))

theorem conjunction_expands_plainly :
    let m := ((initial : Manager Float).indicator "p").2
    let c := Call.binary .and ((initial : Manager Float).indicator "p").1 Table.one
    m.Reachable ∧ c.InRange m.nodeCount ∧
      ∃ memo, m.perform? c =
        (some (m.table.expand c).1, ⟨⟨(m.table.expand c).2, memo⟩, m.vars⟩) := by
  intro m c
  have hm : m.Reachable := ⟨[.indicator "p"], rfl⟩
  have hc : c.InRange m.nodeCount :=
    ⟨(initial_wellFormed.puts_indicator "p").lt_size, hm.wellFormed.table.one_lt_size⟩
  exact ⟨hm, hc, operations_expand_plainly hm hc⟩

end Manager

end DecisionDiagrams
