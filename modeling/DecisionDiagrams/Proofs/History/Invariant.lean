import DecisionDiagrams.Proofs.History.Basic
import DecisionDiagrams.Proofs.Scalar.Float

/-! What holds of the nodes, the results and the variables of a manager with any history. -/
namespace DecisionDiagrams

open Scalar

namespace Table

variable {α : Type} [Scalar α]

inductive Reaches (t : Table α) : Nat → Nat → Prop where
  | refl (d : Nat) : Reaches t d d
  | low {d level low high r : Nat} (hn : t.node d = .branch level low high)
      (h : Reaches t low r) : Reaches t d r
  | high {d level low high r : Nat} (hn : t.node d = .branch level low high)
      (h : Reaches t high r) : Reaches t d r

/-- Every terminal that a path from the node ends at is zero or one. -/
def EndsInZeroOne (t : Table α) (d : Nat) : Prop :=
  ∀ r x, t.Reaches d r → t.node r = .terminal x → r = zero ∨ r = one

theorem endsInZeroOne_terminal {t : Table α} {d : Nat} {x : α} (hn : t.node d = .terminal x) :
    t.EndsInZeroOne d ↔ d = zero ∨ d = one := by
  constructor
  · exact fun h => h d x (.refl d) hn
  · intro h r y hr _
    cases hr with
    | refl => exact h
    | low hn' _ => rw [hn] at hn'; cases hn'
    | high hn' _ => rw [hn] at hn'; cases hn'

theorem endsInZeroOne_branch {t : Table α} {d level low high : Nat}
    (hn : t.node d = .branch level low high) :
    t.EndsInZeroOne d ↔ t.EndsInZeroOne low ∧ t.EndsInZeroOne high := by
  constructor
  · intro h
    exact ⟨fun r x hr => h r x (.low hn hr), fun r x hr => h r x (.high hn hr)⟩
  · rintro ⟨hlow, hhigh⟩ r x hr hx
    cases hr with
    | refl => rw [hn] at hx; cases hx
    | low hn' hr => rw [hn] at hn'; cases hn'; exact hlow r x hr hx
    | high hn' hr => rw [hn] at hn'; cases hn'; exact hhigh r x hr hx

namespace WellFormed

variable {levels : Nat} {t : Table α}

theorem isZeroOne_iff (ht : t.WellFormed levels) {d : Nat} (hd : d < t.size) :
    t.isZeroOne d = true ↔ t.EndsInZeroOne d := by
  induction d using Nat.strongRecOn with
  | ind d ih =>
    cases hn : t.node d with
    | terminal x => rw [endsInZeroOne_terminal hn, ht.isZeroOne_terminal hd hn]
    | branch level low high =>
      obtain ⟨hlow, hhigh⟩ := child_lt hn
      rw [endsInZeroOne_branch hn, ht.isZeroOne_branch hd hn, Bool.and_eq_true,
        ih low hlow (hlow.trans hd), ih high hhigh (hhigh.trans hd)]

theorem eq_of_isNaN [LawfulScalar α] (ht : t.WellFormed levels) {d d' : Nat} (hd : d < t.size)
    (hd' : d' < t.size) {x y : α} (hx : t.node d = .terminal x) (hy : t.node d' = .terminal y)
    (hnanX : isNaN x = true) (hnanY : isNaN y = true) : d = d' := by
  have hsame : canonical x = canonical y := canonical_eq_iff.mpr (.inr ⟨hnanX, hnanY⟩)
  rw [ht.canonical_terminal hd hx, ht.canonical_terminal hd' hy] at hsame
  exact ht.node_injective hd hd' (by rw [hx, hy, hsame])

end WellFormed

end Table

namespace Manager

variable {α : Type} [Scalar α]

structure Invariant (m : Manager α) : Prop where
  one_lt_nodeCount : 1 < m.nodeCount
  node_zero : m.table.node 0 = .terminal Scalar.zero
  node_one : m.table.node 1 = .terminal Scalar.one
  reduced {d level low high : Nat} : d < m.nodeCount → m.table.node d = .branch level low high →
    low ≠ high
  children_lt {d level low high : Nat} : d < m.nodeCount →
    m.table.node d = .branch level low high → low < d ∧ high < d
  ordered {d level low high : Nat} : d < m.nodeCount → m.table.node d = .branch level low high →
    level < m.variableCount ∧ (∀ l ∈ m.table.level? low, level < l) ∧
      ∀ l ∈ m.table.level? high, level < l
  /-- A key is found exactly if it is that of a node, and then that node is found. -/
  numbers (k : NodeKey) (d : Nat) :
    m.table.numbers[k]? = some d ↔ d < m.nodeCount ∧ (m.table.node d).key = k
  unique {d d' : Nat} : d < m.nodeCount → d' < m.nodeCount →
    (m.table.node d).key = (m.table.node d').key → d = d'
  one_nan {d d' : Nat} {x y : α} : d < m.nodeCount → d' < m.nodeCount →
    m.table.node d = .terminal x → m.table.node d' = .terminal y →
    isNaN x = true → isNaN y = true → d = d'
  isZeroOne {d : Nat} : d < m.nodeCount → (m.table.isZeroOne d = true ↔ m.table.EndsInZeroOne d)
  /-- What is remembered of a call has the value of the call everywhere. -/
  memo {c : Call} {r : Nat} : m.store.memo[c]? = some r →
    c.InRange m.nodeCount ∧ r < m.nodeCount ∧
      ∀ a : Assignment, Same (m.table.value a.truth r) (c.compute (m.table.value a.truth))
  names (name : String) (level : Nat) :
    m.vars.level? name = some level ↔ m.vars.name? level = some name
  levels (level : Nat) : (∃ name, m.vars.level? name = some level) ↔ level < m.variableCount

/-- A manager has its invariant after any requests, also after those that failed. -/
theorem representation_invariant [LawfulScalar α] {m : Manager α} (hm : m.Reachable) :
    m.Invariant := by
  have hwell := hm.wellFormed
  have ht := hwell.table
  exact
    { one_lt_nodeCount := ht.one_lt_size
      node_zero := ht.node_zero
      node_one := ht.node_one
      reduced := fun hd hn => (ht.branch_fits hd hn).1
      children_lt := fun _ hn => Table.child_lt hn
      ordered := fun hd hn => (ht.branch_fits hd hn).2
      numbers := ht.getElem?_numbers
      unique := fun hd hd' h => ht.node_injective hd hd' (Node.key_injective h)
      one_nan := fun hd hd' hx hy => ht.eq_of_isNaN hd hd' hx hy
      isZeroOne := ht.isZeroOne_iff
      memo := fun {c r} h => by
        obtain ⟨hc, hsettled⟩ := hwell.store.memo h
        exact ⟨hc, hsettled.lt_size, fun a => hsettled.value a.truth ▸ same_canonical _⟩
      names := hwell.vars
      levels := fun level => by
        rw [exists_congr fun name => hwell.vars name level]
        exact Variables.exists_name? }

theorem representation_invariant_after_failures :
    let requests : List (Request Float) :=
      [.indicator "p", .combine .add 2 9, .solveConstant "1 +", .clear, .encode "p && q"]
    (initial.afterAll requests).Reachable ∧ (initial.afterAll requests).Invariant := by
  intro requests
  have hm : (initial.afterAll requests).Reachable := ⟨requests, rfl⟩
  exact ⟨hm, representation_invariant hm⟩

end Manager

end DecisionDiagrams
