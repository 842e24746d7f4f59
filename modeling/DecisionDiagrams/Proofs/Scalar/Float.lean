import DecisionDiagrams.Proofs.Scalar.Laws
import DecisionDiagrams.Scalar.Strict
import Mathlib

/-! Double and single precision obey the laws of terminal values. -/
namespace DecisionDiagrams

open Float.Model (Format UnpackedFloat)
open Float.Model.UnpackedFloat (Sign)
open Scalar

section OneNaN

variable {α : Type} [Scalar α]

def OneNaN (α : Type) [Scalar α] : Prop :=
  ∀ x y : α, Scalar.isNaN x = true → Scalar.isNaN y = true → x = y

theorem OneNaN.same_iff (h : OneNaN α) {x y : α} : Same x y ↔ x = y := by
  constructor
  · rintro (hxy | ⟨hx, hy⟩)
    · exact hxy
    · exact h x y hx hy
  · rintro rfl
    exact .refl x

theorem OneNaN.congr₁ (h : OneNaN α) (op : α → α) {x x' : α} (hx : Same x x') :
    Same (op x) (op x') := by
  obtain rfl := h.same_iff.mp hx
  exact .refl _

theorem OneNaN.congr₂ (h : OneNaN α) (op : α → α → α) {x x' y y' : α} (hx : Same x x')
    (hy : Same y y') : Same (op x y) (op x' y') := by
  obtain rfl := h.same_iff.mp hx
  obtain rfl := h.same_iff.mp hy
  exact .refl _

end OneNaN

namespace BinaryLayout

theorem isNegative_eq_ite (l : BinaryLayout) (bits : Nat) :
    bits / Nat.pow 2 (l.fractionBits + l.exponentBits) % 2 =
      if l.isNegative bits then 1 else 0 := by
  unfold isNegative
  rcases Nat.mod_two_eq_zero_or_one (bits / Nat.pow 2 (l.fractionBits + l.exponentBits)) with h | h
  · rw [h]; rfl
  · rw [h]; rfl

/-- A bit pattern is put together from its three fields. -/
theorem bits_eq (l : BinaryLayout) {bits : Nat}
    (h : bits < Nat.pow 2 (l.fractionBits + l.exponentBits + 1)) :
    bits = l.fraction bits + Nat.pow 2 l.fractionBits *
      (l.exponent bits + Nat.pow 2 l.exponentBits * if l.isNegative bits then 1 else 0) := by
  rw [← isNegative_eq_ite]
  simp only [fraction, exponent, Nat.pow_eq] at h ⊢
  have htop : bits / 2 ^ l.fractionBits / 2 ^ l.exponentBits < 2 := by
    rw [Nat.div_div_eq_div_mul, ← Nat.pow_add]
    exact Nat.div_lt_of_lt_mul (by rwa [← Nat.pow_succ])
  rw [Nat.pow_add, ← Nat.div_div_eq_div_mul, Nat.mod_eq_of_lt htop]
  rw [Nat.mod_add_div, Nat.mod_add_div]

/-- The parts of a number determine its bits, also among infinities, NaNs and subnormal
numbers. -/
theorem decode_injective (l : BinaryLayout) {bits bits' : Nat}
    (h : bits < Nat.pow 2 (l.fractionBits + l.exponentBits + 1))
    (h' : bits' < Nat.pow 2 (l.fractionBits + l.exponentBits + 1))
    (heq : l.decode bits = l.decode bits') : bits = bits' := by
  simp only [decode, Decoded.mk.injEq] at heq
  obtain ⟨hmantissa, hexponent, hsign⟩ := heq
  have he : l.exponent bits = l.exponent bits' := by omega
  have hf : l.fraction bits = l.fraction bits' := by
    rw [he] at hmantissa
    split at hmantissa
    · omega
    · omega
  have hs : l.isNegative bits = l.isNegative bits' := by
    cases hb : l.isNegative bits <;> cases hb' : l.isNegative bits' <;> simp [hb, hb'] at hsign ⊢
  rw [l.bits_eq h, l.bits_eq h', he, hf, hs]

end BinaryLayout

namespace Unpacked

theorem sign_mul_comm (s t : Sign) : s * t = t * s := by cases s <;> cases t <;> rfl

theorem add_comm (spec : Format) (a b : UnpackedFloat) :
    UnpackedFloat.add spec a b = UnpackedFloat.add spec b a := by
  cases a with
  | notANumber => cases b <;> rfl
  | infinity s =>
    cases b with
    | infinity t => cases s <;> cases t <;> rfl
    | _ => rfl
  | zero s =>
    cases b with
    | zero t => cases s <;> cases t <;> rfl
    | _ => rfl
  | finite s m e hm =>
    cases b with
    | finite t n f hn => simp only [UnpackedFloat.add, Int.add_comm, Int.min_comm]
    | _ => rfl

theorem mul_comm (spec : Format) (a b : UnpackedFloat) :
    UnpackedFloat.mul spec a b = UnpackedFloat.mul spec b a := by
  cases a <;> cases b <;>
    simp only [UnpackedFloat.mul, sign_mul_comm, Nat.mul_comm, Int.add_comm]

end Unpacked

theorem float_eq_nan {x : Float} (h : Scalar.isNaN x = true) : x = Float.nan :=
  of_decide_eq_true (Float.isNaN_eq_decide_eq_nan.symm.trans h)

theorem oneNaN_float : OneNaN Float := fun _ _ hx hy =>
  (float_eq_nan hx).trans (float_eq_nan hy).symm

instance : LawfulScalar Float where
  isNaN_nan := by decide
  isNaN_zero := by decide
  isNaN_one := by decide
  isZero_zero := by decide
  isZero_one := by decide
  isZero_of_isNaN x h := by rw [float_eq_nan h]; decide
  decode_injective x y h := by
    apply Float.toBits_inj.mp
    apply UInt64.toNat_inj.mp
    exact BinaryLayout.decode_injective .binary64 x.toBits.toNat_lt y.toBits.toNat_lt h
  add_congr := oneNaN_float.congr₂ _
  subtract_congr := oneNaN_float.congr₂ _
  multiply_congr := oneNaN_float.congr₂ _
  divide_congr := oneNaN_float.congr₂ _
  negate_congr := oneNaN_float.congr₁ _
  add_comm x y := .inl (congrArg (fun u => Float.ofModel (.pack u)) (Unpacked.add_comm _ _ _))
  multiply_comm x y := .inl (congrArg (fun u => Float.ofModel (.pack u)) (Unpacked.mul_comm _ _ _))

theorem float32_eq_nan {x : Float32} (h : Scalar.isNaN x = true) : x = Float32.nan :=
  of_decide_eq_true (Float32.isNaN_eq_decide_eq_nan.symm.trans h)

theorem oneNaN_float32 : OneNaN Float32 := fun _ _ hx hy =>
  (float32_eq_nan hx).trans (float32_eq_nan hy).symm

instance : LawfulScalar Float32 where
  isNaN_nan := by decide
  isNaN_zero := by decide
  isNaN_one := by decide
  isZero_zero := by decide
  isZero_one := by decide
  isZero_of_isNaN x h := by rw [float32_eq_nan h]; decide
  decode_injective x y h := by
    apply Float32.toBits_inj.mp
    apply UInt32.toNat_inj.mp
    exact BinaryLayout.decode_injective .binary32 x.toBits.toNat_lt y.toBits.toNat_lt h
  add_congr := oneNaN_float32.congr₂ _
  subtract_congr := oneNaN_float32.congr₂ _
  multiply_congr := oneNaN_float32.congr₂ _
  divide_congr := oneNaN_float32.congr₂ _
  negate_congr := oneNaN_float32.congr₁ _
  add_comm x y := .inl (congrArg (fun u => Float32.ofModel (.pack u)) (Unpacked.add_comm _ _ _))
  multiply_comm x y :=
    .inl (congrArg (fun u => Float32.ofModel (.pack u)) (Unpacked.mul_comm _ _ _))

theorem oneNaN_strictFloat : OneNaN StrictFloat := fun x y hx hy =>
  congrArg StrictFloat.mk (oneNaN_float x.value y.value hx hy)

instance : LawfulScalar StrictFloat where
  isNaN_nan := LawfulScalar.isNaN_nan (α := Float)
  isNaN_zero := LawfulScalar.isNaN_zero (α := Float)
  isNaN_one := LawfulScalar.isNaN_one (α := Float)
  isZero_zero := LawfulScalar.isZero_zero (α := Float)
  isZero_one := LawfulScalar.isZero_one (α := Float)
  isZero_of_isNaN x h := LawfulScalar.isZero_of_isNaN x.value h
  decode_injective x y h :=
    congrArg StrictFloat.mk (LawfulScalar.decode_injective x.value y.value h)
  add_congr := oneNaN_strictFloat.congr₂ _
  subtract_congr := oneNaN_strictFloat.congr₂ _
  multiply_congr := oneNaN_strictFloat.congr₂ _
  divide_congr := oneNaN_strictFloat.congr₂ _
  negate_congr := oneNaN_strictFloat.congr₁ _
  add_comm x y := .inl (congrArg StrictFloat.mk
    (oneNaN_float.same_iff.mp (LawfulScalar.add_comm x.value y.value)))
  multiply_comm x y := .inl (congrArg StrictFloat.mk
    (oneNaN_float.same_iff.mp (LawfulScalar.multiply_comm x.value y.value)))

end DecisionDiagrams
