import DecisionDiagrams.Diagram.Operation
import DecisionDiagrams.Diagram.Table

/-! An operation together with the diagrams it is asked for. -/
namespace DecisionDiagrams

inductive Call where
  | unary (op : UnaryOp) (f : Nat)
  | binary (op : BinaryOp) (f g : Nat)
  deriving DecidableEq, Hashable, Repr

/-- A call on terminals has a value. Any other splits into two calls at the smallest level that
its operands test. -/
inductive Split (α : Type) where
  | value (x : α)
  | cofactors (level : Nat) (low high : Call)

namespace Call

def InRange (size : Nat) : Call → Prop
  | unary _ f => f < size
  | binary _ f g => f < size ∧ g < size

instance (size : Nat) (c : Call) : Decidable (c.InRange size) := by
  cases c <;> unfold InRange <;> infer_instance

/-- The sum of the operands, which cofactors make smaller. -/
def rank : Call → Nat
  | unary _ f => f
  | binary _ f g => f + g

/-- The form in which a call is remembered. Operands that commute are in ascending order. -/
def key : Call → Call
  | unary op f => unary op f
  | binary op f g => if op.isCommutative ∧ g < f then binary op g f else binary op f g

variable {α : Type} [Scalar α]

def split (t : Table α) : Call → Split α
  | unary op f =>
    match t.node f with
    | .terminal x => .value (op.compute x)
    | .branch level low high => .cofactors level (unary op low) (unary op high)
  | binary op f g =>
    match t.node f, t.node g with
    | .terminal x, .terminal y => .value (op.compute x y)
    | .branch level low high, .terminal _ =>
      .cofactors level (binary op low g) (binary op high g)
    | .terminal _, .branch level low high =>
      .cofactors level (binary op f low) (binary op f high)
    | .branch level low high, .branch level' low' high' =>
      if level < level' then .cofactors level (binary op low g) (binary op high g)
      else if level' < level then .cofactors level' (binary op f low') (binary op f high')
      else .cofactors level (binary op low low') (binary op high high')

theorem rank_lt_of_split {t : Table α} {c low high : Call} {level : Nat}
    (h : c.split t = .cofactors level low high) : low.rank < c.rank ∧ high.rank < c.rank := by
  match c with
  | unary op f =>
    simp only [split] at h
    split at h
    next => cases h
    next hf => cases h; exact Table.child_lt hf
  | binary op f g =>
    simp only [split] at h
    split at h
    next => cases h
    next hf _ => cases h; have := Table.child_lt hf; simp only [rank]; omega
    next _ hg => cases h; have := Table.child_lt hg; simp only [rank]; omega
    next hf hg =>
      have := Table.child_lt hf
      have := Table.child_lt hg
      split at h
      · cases h; simp only [rank]; omega
      split at h
      · cases h; simp only [rank]; omega
      · cases h; simp only [rank]; omega

def truth? (t : Table α) (d : Nat) : Option Bool :=
  match t.node d with
  | .terminal x => some (Scalar.isTrue x)
  | .branch _ _ _ => none

/-- The result of a connective that is known from its operands alone: one of them decides it,
or leaves it to the other, or both are the same. An operand is the result only if its terminals
are zero and one. -/
def immediate? (t : Table α) : Call → Option Nat
  | unary _ _ => none
  | binary op f g =>
    match op.decidedBy? with
    | none => none
    | some b =>
      let decided := if b then Table.one else Table.zero
      let neutral := if b then Table.zero else Table.one
      if truth? t f = some b ∨ truth? t g = some b then some decided
      else if f = g ∧ t.isZeroOne f then some f
      else if f = neutral ∧ t.isZeroOne g then some g
      else if g = neutral ∧ t.isZeroOne f then some f
      else none

end Call

end DecisionDiagrams
