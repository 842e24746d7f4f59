import DecisionDiagrams.Proofs.Diagram.Expansion

/-! Shortcuts are settled. A call with its operands exchanged, and a connective whose result is
known from its operands alone, need no node that is not in the table. -/
namespace DecisionDiagrams

open Scalar

namespace Call

variable {α : Type} [Scalar α]

def swap : Call → Call
  | unary op f => unary op f
  | binary op f g => binary op g f

def IsCommutative : Call → Prop
  | unary _ _ => True
  | binary op _ _ => op.isCommutative = true

theorem key_eq (c : Call) : c.key = c ∨ c.IsCommutative ∧ c.key = c.swap := by
  cases c with
  | unary op f => exact .inl rfl
  | binary op f g =>
    by_cases h : op.isCommutative ∧ g < f
    · exact .inr ⟨h.1, if_pos h⟩
    · exact .inl (if_neg h)

theorem level?_binary (t : Table α) (op : BinaryOp) (f g : Nat) :
    (binary op f g).level? t = (t.level? f).merge min (t.level? g) := by
  cases hf : t.level? f <;> cases hg : t.level? g <;> simp [level?, operands, hf, hg]

/-- A call on a constant and a branch splits at the branch. -/
theorem halves_of_terminal_branch {t : Table α} {f g level low high : Nat} {x : α}
    (hf : t.node f = .terminal x) (hg : t.node g = .branch level low high) (op : BinaryOp) :
    (binary op f g).level? t = some level ∧
      (binary op f g).cofactor t level false = binary op f low ∧
      (binary op f g).cofactor t level true = binary op f high := by
  refine ⟨?_, ?_, ?_⟩
  · simp [level?_binary, Table.level?_terminal hf, Table.level?_branch hg]
  · simp [cofactor, map, Table.cofactor_terminal hf, Table.cofactor_branch hg]
  · simp [cofactor, map, Table.cofactor_terminal hf, Table.cofactor_branch hg]

theorem halves_of_branch_self {t : Table α} {f level low high : Nat}
    (hf : t.node f = .branch level low high) (op : BinaryOp) :
    (binary op f f).level? t = some level ∧
      (binary op f f).cofactor t level false = binary op low low ∧
      (binary op f f).cofactor t level true = binary op high high := by
  refine ⟨?_, ?_, ?_⟩
  · simp [level?_binary, Table.level?_branch hf]
  · simp [cofactor, map, Table.cofactor_branch hf]
  · simp [cofactor, map, Table.cofactor_branch hf]

theorem level?_swap (t : Table α) (c : Call) : c.swap.level? t = c.level? t := by
  cases c with
  | unary op f => rfl
  | binary op f g =>
    rw [swap, level?_binary, level?_binary]
    cases t.level? f <;> cases t.level? g <;> simp [Nat.min_comm]

theorem cofactor_swap (t : Table α) (level : Nat) (side : Bool) (c : Call) :
    c.swap.cofactor t level side = (c.cofactor t level side).swap := by cases c <;> rfl

theorem IsCommutative.cofactor {c : Call} (h : c.IsCommutative) (t : Table α) (level : Nat)
    (side : Bool) : (c.cofactor t level side).IsCommutative := by cases c <;> exact h

theorem compute_swap [LawfulScalar α] {c : Call} (h : c.IsCommutative) (value : Nat → α) :
    Same (c.swap.compute value) (c.compute value) := by
  cases c with
  | unary op f => exact .refl _
  | binary op f g => exact op.compute_comm h _ _

end Call

namespace Table

variable {α : Type} [Scalar α] {levels : Nat} {t : Table α}

def ofBool (b : Bool) : Nat := if b then one else zero

theorem WellFormed.node_ofBool (ht : t.WellFormed levels) (b : Bool) :
    t.node (ofBool b) = .terminal (Scalar.ofBool b) := by
  cases b
  · exact ht.node_zero
  · exact ht.node_one

theorem WellFormed.ofBool_lt_size (ht : t.WellFormed levels) (b : Bool) :
    ofBool b < t.size := by
  cases b
  · exact ht.zero_lt_size
  · exact ht.one_lt_size

theorem WellFormed.exists_ofBool (ht : t.WellFormed levels) {d : Nat} (hd : d < t.size) {x : α}
    (hnode : t.node d = .terminal x) (h : t.isZeroOne d = true) : ∃ b, d = ofBool b := by
  rcases (ht.isZeroOne_terminal hd hnode).mp h with rfl | rfl
  · exact ⟨false, rfl⟩
  · exact ⟨true, rfl⟩

theorem exists_terminal_of_truth? {d : Nat} {b : Bool} (h : Call.truth? t d = some b) :
    ∃ x, t.node d = .terminal x ∧ isTrue x = b := by
  unfold Call.truth? at h
  split at h
  next x hx => exact ⟨x, hx, Option.some.inj h⟩
  next => cases h

theorem settled_of_terminals {op : BinaryOp} {f g d : Nat} {x y : α} (hf : t.node f = .terminal x)
    (hg : t.node g = .terminal y) (hd : d < t.size)
    (hnode : t.node d = .terminal (canonical (op.compute x y))) :
    t.Settled (.binary op f g) d := by
  refine .constant ?_ hd ?_
  · simp [Call.level?_binary, level?_terminal hf, level?_terminal hg]
  · rw [hnode, Call.compute, value_terminal hf, value_terminal hg]

variable [LawfulScalar α]

theorem Settled.swap {c : Call} {d : Nat} (h : t.Settled c d) (hc : c.IsCommutative) :
    t.Settled c.swap d := by
  induction h with
  | constant hlevel hd hnode =>
    refine .constant ((Call.level?_swap t _).trans hlevel) hd ?_
    rw [hnode, canonical_eq_iff.mpr (Call.compute_swap hc _)]
  | @same c d level hlevel low high ihLow ihHigh =>
    refine .same ((Call.level?_swap t c).trans hlevel) ?_ ?_
    · rw [Call.cofactor_swap]; exact ihLow (hc.cofactor t level false)
    · rw [Call.cofactor_swap]; exact ihHigh (hc.cofactor t level true)
  | @branch c d level l h hlevel low high hd hnode ihLow ihHigh =>
    refine .branch ((Call.level?_swap t c).trans hlevel) ?_ ?_ hd hnode
    · rw [Call.cofactor_swap]; exact ihLow (hc.cofactor t level false)
    · rw [Call.cofactor_swap]; exact ihHigh (hc.cofactor t level true)

theorem settled_swap {c : Call} {d : Nat} (hc : c.IsCommutative) :
    t.Settled c.swap d ↔ t.Settled c d := by
  constructor
  · intro h
    have hback := h.swap (by cases c <;> exact hc)
    cases c <;> exact hback
  · exact fun h => h.swap hc

/-- What is remembered under the key of a call is known for the call. -/
theorem settled_key {c : Call} {d : Nat} : t.Settled c.key d ↔ t.Settled c d := by
  rcases c.key_eq with h | ⟨hc, h⟩
  · rw [h]
  · rw [h, settled_swap hc]

section Connective

variable {op : BinaryOp} {b : Bool}

/-- An operand that decides a connective leaves nothing to look at in the other. -/
theorem WellFormed.settled_decided (ht : t.WellFormed levels) (hop : op.decidedBy? = some b)
    {f : Nat} {x : α} (hf : t.node f = .terminal x) (hx : isTrue x = b) (g : Nat) :
    t.Settled (.binary op f g) (ofBool b) := by
  induction g using Nat.strongRecOn with
  | ind g ih =>
    cases hg : t.node g with
    | terminal y =>
      refine settled_of_terminals hf hg (ht.ofBool_lt_size b) ?_
      rw [ht.node_ofBool, BinaryOp.compute_of_decidedBy? hop, if_pos (.inl hx), canonical_ofBool]
    | branch level low high =>
      obtain ⟨hlow, hhigh⟩ := child_lt hg
      obtain ⟨hlevel, hhalfLow, hhalfHigh⟩ := Call.halves_of_terminal_branch hf hg op
      exact .same hlevel (hhalfLow ▸ ih low hlow) (hhalfHigh ▸ ih high hhigh)

/-- A diagram of truth values is its own conjunction and disjunction. -/
theorem WellFormed.settled_self (ht : t.WellFormed levels) (hop : op.decidedBy? = some b)
    {f : Nat} (hf : f < t.size) (hzeroOne : t.isZeroOne f = true) :
    t.Settled (.binary op f f) f := by
  induction f using Nat.strongRecOn with
  | ind f ih =>
    cases hn : t.node f with
    | terminal x =>
      obtain ⟨c, rfl⟩ := ht.exists_ofBool hf hn hzeroOne
      have hc := ht.node_ofBool c
      refine settled_of_terminals hc hc hf ?_
      rw [hc, BinaryOp.compute_of_decidedBy? hop, canonical_ofBool]
      cases b <;> cases c <;> simp
    | branch level low high =>
      obtain ⟨hlow, hhigh⟩ := child_lt hn
      obtain ⟨hlevel, hhalfLow, hhalfHigh⟩ := Call.halves_of_branch_self hn op
      rw [ht.isZeroOne_branch hf hn, Bool.and_eq_true] at hzeroOne
      exact .branch hlevel (hhalfLow ▸ ih low hlow (hlow.trans hf) hzeroOne.1)
        (hhalfHigh ▸ ih high hhigh (hhigh.trans hf) hzeroOne.2) hf hn

/-- A constant that leaves a connective to the other operand gives a diagram of truth values
back. -/
theorem WellFormed.settled_neutral (ht : t.WellFormed levels) (hop : op.decidedBy? = some b)
    {g : Nat} (hg : g < t.size) (hzeroOne : t.isZeroOne g = true) :
    t.Settled (.binary op (ofBool !b) g) g := by
  have hneutral := ht.node_ofBool (!b)
  induction g using Nat.strongRecOn with
  | ind g ih =>
    cases hn : t.node g with
    | terminal x =>
      obtain ⟨c, rfl⟩ := ht.exists_ofBool hg hn hzeroOne
      have hc := ht.node_ofBool c
      refine settled_of_terminals hneutral hc hg ?_
      rw [hc, BinaryOp.compute_of_decidedBy? hop, canonical_ofBool]
      cases b <;> cases c <;> simp
    | branch level low high =>
      obtain ⟨hlow, hhigh⟩ := child_lt hn
      obtain ⟨hlevel, hhalfLow, hhalfHigh⟩ := Call.halves_of_terminal_branch hneutral hn op
      rw [ht.isZeroOne_branch hg hn, Bool.and_eq_true] at hzeroOne
      exact .branch hlevel (hhalfLow ▸ ih low hlow (hlow.trans hg) hzeroOne.1)
        (hhalfHigh ▸ ih high hhigh (hhigh.trans hg) hzeroOne.2) hg hn

end Connective

/-- A result that is known from the operands alone is that of the plain expansion. -/
theorem WellFormed.settled_of_immediate? (ht : t.WellFormed levels) {c : Call} {d : Nat}
    (hc : c.InRange t.size) (h : c.immediate? t = some d) : t.Settled c d := by
  cases c with
  | unary op f => cases h
  | binary op f g =>
    simp only [Call.immediate?] at h
    split at h
    next => cases h
    next b hop =>
      have hcomm := BinaryOp.isCommutative_of_decidedBy? hop
      have hneutral : (if b = true then zero else one) = ofBool !b := by cases b <;> rfl
      rw [hneutral] at h
      split at h
      next htruth =>
        cases h
        rcases htruth with htruth | htruth
        · obtain ⟨x, hx, hb⟩ := exists_terminal_of_truth? htruth
          exact ht.settled_decided hop hx hb g
        · obtain ⟨x, hx, hb⟩ := exists_terminal_of_truth? htruth
          exact (ht.settled_decided hop hx hb f).swap hcomm
      split at h
      next hself =>
        cases h
        obtain ⟨rfl, hzeroOne⟩ := hself
        exact ht.settled_self hop hc.1 hzeroOne
      split at h
      next hleft =>
        cases h
        obtain ⟨rfl, hzeroOne⟩ := hleft
        exact ht.settled_neutral hop hc.2 hzeroOne
      split at h
      next hright =>
        cases h
        obtain ⟨rfl, hzeroOne⟩ := hright
        exact (ht.settled_neutral hop hc.1 hzeroOne).swap hcomm
      next => cases h

end Table

end DecisionDiagrams
