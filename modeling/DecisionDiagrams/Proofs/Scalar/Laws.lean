import DecisionDiagrams.Diagram.Operation

/-! The laws of terminal values. A NaN matters only through its being one, and a value is told
from every other one by its parts. -/
namespace DecisionDiagrams

namespace Scalar

variable {α : Type} [Scalar α]

/-- The same value, where all NaNs are one. -/
def Same (x y : α) : Prop := x = y ∨ isNaN x = true ∧ isNaN y = true

theorem Same.refl (x : α) : Same x x := .inl rfl

theorem Same.symm {x y : α} (h : Same x y) : Same y x :=
  h.elim (fun h => .inl h.symm) fun h => .inr ⟨h.2, h.1⟩

theorem Same.trans {x y z : α} (hxy : Same x y) (hyz : Same y z) : Same x z := by
  rcases hxy with rfl | ⟨hx, hy⟩
  · exact hyz
  rcases hyz with rfl | ⟨-, hz⟩
  · exact .inr ⟨hx, hy⟩
  · exact .inr ⟨hx, hz⟩

end Scalar

open Scalar

class LawfulScalar (α : Type) [Scalar α] : Prop where
  isNaN_nan : isNaN (nan : α) = true
  isNaN_zero : isNaN (zero : α) = false
  isNaN_one : isNaN (one : α) = false
  isZero_zero : isZero (zero : α) = true
  isZero_one : isZero (one : α) = false
  isZero_of_isNaN (x : α) : isNaN x = true → isZero x = false
  decode_injective (x y : α) : decode x = decode y → x = y
  add_congr {x x' y y' : α} : Same x x' → Same y y' → Same (add x y) (add x' y')
  subtract_congr {x x' y y' : α} : Same x x' → Same y y' → Same (subtract x y) (subtract x' y')
  multiply_congr {x x' y y' : α} : Same x x' → Same y y' → Same (multiply x y) (multiply x' y')
  divide_congr {x x' y y' : α} : Same x x' → Same y y' → Same (divide x y) (divide x' y')
  negate_congr {x x' : α} : Same x x' → Same (negate x) (negate x')
  add_comm (x y : α) : Same (add x y) (add y x)
  multiply_comm (x y : α) : Same (multiply x y) (multiply y x)

theorem BinaryOp.isCommutative_of_decidedBy? {op : BinaryOp} {b : Bool}
    (h : op.decidedBy? = some b) : op.isCommutative = true := by
  cases op <;> simp [decidedBy?, isCommutative] at h ⊢

/-- A connective that `b` decides gives `b` if an operand is `b`, and the other truth value if
none is. -/
theorem BinaryOp.compute_of_decidedBy? {α : Type} [Scalar α] {op : BinaryOp} {b : Bool}
    (h : op.decidedBy? = some b) (x y : α) :
    op.compute x y = ofBool (if isTrue x = b ∨ isTrue y = b then b else !b) := by
  cases op <;> cases h
  · cases hx : isTrue x <;> cases hy : isTrue y <;> simp [compute, hx, hy]
  · cases hx : isTrue x <;> cases hy : isTrue y <;> simp [compute, hx, hy]

variable {α : Type} [Scalar α] [LawfulScalar α]

namespace Scalar

open LawfulScalar

@[simp] theorem isNaN_ofBool (b : Bool) : isNaN (ofBool b : α) = false := by
  cases b
  · exact isNaN_zero
  · exact isNaN_one

@[simp] theorem isTrue_ofBool (b : Bool) : isTrue (ofBool b : α) = b := by
  cases b
  · simp [isTrue, ofBool, isZero_zero]
  · simp [isTrue, ofBool, isZero_one]

theorem ofBool_injective {b c : Bool} (h : (ofBool b : α) = ofBool c) : b = c := by
  rw [← isTrue_ofBool (α := α) b, h, isTrue_ofBool]

theorem same_canonical (x : α) : Same (canonical x) x := by
  unfold canonical
  split
  next h => exact .inr ⟨isNaN_nan, h⟩
  next => exact .refl x

theorem canonical_eq_iff {x y : α} : canonical x = canonical y ↔ Same x y := by
  constructor
  · intro h
    exact (same_canonical x).symm.trans (h ▸ same_canonical y)
  · rintro (rfl | ⟨hx, hy⟩)
    · rfl
    · rw [canonical, canonical, if_pos hx, if_pos hy]

@[simp] theorem canonical_canonical (x : α) : canonical (canonical x) = canonical x :=
  canonical_eq_iff.mpr (same_canonical x)

@[simp] theorem canonical_ofBool (b : Bool) : canonical (ofBool b : α) = ofBool b := by
  simp [canonical]

theorem canonical_zero : canonical (zero : α) = zero := canonical_ofBool false

theorem canonical_one : canonical (one : α) = one := canonical_ofBool true

theorem isTrue_congr {x y : α} (h : Same x y) : isTrue x = isTrue y := by
  rcases h with rfl | ⟨hx, hy⟩
  · rfl
  · rw [isTrue, isTrue, isZero_of_isNaN x hx, isZero_of_isNaN y hy]

end Scalar

open LawfulScalar

theorem UnaryOp.compute_congr (op : UnaryOp) {x x' : α} (h : Same x x') :
    Same (op.compute x) (op.compute x') := by
  cases op with
  | negate => exact negate_congr h
  | complement => exact .inl (by rw [compute, compute, isTrue_congr h])

theorem BinaryOp.compute_congr (op : BinaryOp) {x x' y y' : α} (hx : Same x x') (hy : Same y y') :
    Same (op.compute x y) (op.compute x' y') := by
  cases op with
  | add => exact add_congr hx hy
  | subtract => exact subtract_congr hx hy
  | multiply => exact multiply_congr hx hy
  | divide => exact divide_congr hx hy
  | and => exact .inl (by rw [compute, compute, isTrue_congr hx, isTrue_congr hy])
  | or => exact .inl (by rw [compute, compute, isTrue_congr hx, isTrue_congr hy])

theorem BinaryOp.compute_comm {op : BinaryOp} (h : op.isCommutative = true) (x y : α) :
    Same (op.compute x y) (op.compute y x) := by
  cases op with
  | add => exact add_comm x y
  | multiply => exact multiply_comm x y
  | and => exact .inl (by rw [compute, compute, Bool.and_comm])
  | or => exact .inl (by rw [compute, compute, Bool.or_comm])
  | subtract => cases h
  | divide => cases h

end DecisionDiagrams
