import DecisionDiagrams.Proofs.Scalar.Float

/-! Signs in double and single precision. To negate a number twice changes nothing, to subtract a
number is to add the negated one, to negate a factor is to negate the product, and there is a zero
of either sign, but no other number that counts as zero. -/
namespace DecisionDiagrams

open Float.Model (Format UnpackedFloat)
open Float.Model.UnpackedFloat
open Scalar

def NegatesBack (α : Type) [Scalar α] : Prop := ∀ x : α, Same (negate (negate x)) x

structure SignLaws (α : Type) [Scalar α] : Prop where
  negatesBack : NegatesBack α
  subtract_eq (x y : α) : Same (subtract x y) (add x (negate y))
  multiply_negate (x y : α) : Same (multiply (negate x) y) (negate (multiply x y))

/-- The two zeros are the only numbers that count as zero. -/
def TwoZeros (α : Type) [Scalar α] : Prop :=
  ∀ x : α, isZero x = true ↔ x = Scalar.zero ∨ x = negate Scalar.zero

namespace Unpacked

theorem neg_neg (u : UnpackedFloat) : u.neg.neg = u := by
  have hsign (s : Sign) : - -s = s := by cases s <;> rfl
  cases u <;> simp only [UnpackedFloat.neg, hsign]

variable {spec : Format}

/-- The number with the other sign bit is the negative number, unless it is a NaN. -/
theorem neg_unpack (s : Sign) (e : BitVec spec.exponentBits)
    (m : BitVec spec.mantissaBitsWithoutImplicit) :
    (unpack spec (packComponents spec s e m)).neg = unpack spec (packComponents spec (-s) e m) := by
  unfold unpack
  simp only [unpackSign_packComponents, unpackExponent_packComponents,
    unpackMantissa_packComponents, Sign.ofBitVec_toBitVec]
  split
  · split
    · rfl
    · rfl
  · split
    · split
      · rfl
      · rfl
    · rfl

theorem unpack_pack_unpack (hspec : 2 ≤ spec.exponentBits) (b : BitVec spec.numBits) :
    unpack spec (pack spec (unpack spec b)) = unpack spec b := by
  rw [pack_unpack b hspec]
  split
  next hnan =>
    simp only [isNaNBits, decide_eq_true_eq] at hnan
    rw [unpack_packedNaN]
    simp [unpack, hnan]
  next => rfl

theorem exists_neg_unpack (b : BitVec spec.numBits) :
    ∃ b', (unpack spec b).neg = unpack spec b' := by
  rw [← packComponents_unpackSign_unpackExponent_unpackMantissa b]
  exact ⟨_, neg_unpack _ _ _⟩

/-- Negation neither rounds nor loses a sign. -/
theorem unpack_pack_neg (hspec : 2 ≤ spec.exponentBits) (b : BitVec spec.numBits) :
    unpack spec (pack spec (unpack spec b).neg) = (unpack spec b).neg := by
  obtain ⟨b', hb'⟩ := exists_neg_unpack b
  rw [hb', unpack_pack_unpack hspec b']

theorem pack_neg_neg (hspec : 2 ≤ spec.exponentBits) {b : BitVec spec.numBits}
    (hb : spec.Valid b) :
    pack spec (unpack spec (pack spec (unpack spec b).neg)).neg = b := by
  rw [unpack_pack_neg hspec, neg_neg, pack_unpack_of_valid hb hspec]

/-- Whether a number is out of range does not depend on its sign. -/
theorem neg_unpack_pack (u : UnpackedFloat) :
    (unpack spec (pack spec u)).neg = unpack spec (pack spec u.neg) := by
  cases u with
  | notANumber => simp only [pack, UnpackedFloat.neg, unpack_packedNaN]
  | infinity s => exact neg_unpack s _ _
  | zero s => exact neg_unpack s _ _
  | finite s m e hm =>
    rw [show (finite s m e hm).neg = finite (-s) m e hm from rfl]
    simp only [pack]
    split
    · exact neg_unpack s _ _
    split
    · exact neg_unpack s _ _
    · exact neg_unpack s _ _

theorem sub_eq (a b : UnpackedFloat) : sub spec a b = UnpackedFloat.add spec a b.neg := by
  have happly (s : Sign) (n : Int) : (-s).apply n = -s.apply n := by
    cases s
    · exact (Int.neg_neg n).symm
    · rfl
  cases a with
  | finite s m e hm =>
    cases b with
    | finite t n f hn =>
      simp only [sub, UnpackedFloat.add, UnpackedFloat.neg, happly, Int.sub_eq_add_neg]
    | _ => rfl
  | _ => cases b <;> rfl

theorem neg_mul (a b : UnpackedFloat) : mul spec a.neg b = (mul spec a b).neg := by
  have hsign (s t : Sign) : -s * t = -(s * t) := by cases s <;> cases t <;> rfl
  cases a with
  | finite s m e hm =>
    cases b with
    | finite t n f hn =>
      simp only [mul, UnpackedFloat.neg, hsign, roundWithAccuracy]
      split
      · rfl
      · rfl
    | _ => simp only [mul, UnpackedFloat.neg, hsign]
  | _ => cases b <;> simp only [mul, UnpackedFloat.neg, hsign]

variable (hspec : 2 ≤ spec.exponentBits) (a b : BitVec spec.numBits)
include hspec

theorem pack_sub :
    pack spec (sub spec (unpack spec a) (unpack spec b)) =
      pack spec (UnpackedFloat.add spec (unpack spec a)
        (unpack spec (pack spec (unpack spec b).neg))) := by
  rw [sub_eq, unpack_pack_neg hspec]

theorem pack_neg_mul :
    pack spec (mul spec (unpack spec (pack spec (unpack spec a).neg)) (unpack spec b)) =
      pack spec (unpack spec (pack spec (mul spec (unpack spec a) (unpack spec b)))).neg := by
  rw [unpack_pack_neg hspec, neg_mul, neg_unpack_pack, pack_unpack_of_valid valid_pack hspec]

end Unpacked

theorem negatesBack_float : NegatesBack Float := by
  intro x
  left
  apply Float.toBits_inj.mp
  apply UInt64.toBitVec_inj.mp
  exact Unpacked.pack_neg_neg (by decide) x.toModel.valid

theorem negatesBack_float32 : NegatesBack Float32 := by
  intro x
  left
  apply Float32.toBits_inj.mp
  apply UInt32.toBitVec_inj.mp
  exact Unpacked.pack_neg_neg (by decide) x.toModel.valid

theorem signLaws_float : SignLaws Float where
  negatesBack := negatesBack_float
  subtract_eq x y := by
    left
    apply Float.toBits_inj.mp
    apply UInt64.toBitVec_inj.mp
    exact Unpacked.pack_sub (by decide) _ _
  multiply_negate x y := by
    left
    apply Float.toBits_inj.mp
    apply UInt64.toBitVec_inj.mp
    exact Unpacked.pack_neg_mul (by decide) _ _

theorem signLaws_float32 : SignLaws Float32 where
  negatesBack := negatesBack_float32
  subtract_eq x y := by
    left
    apply Float32.toBits_inj.mp
    apply UInt32.toBitVec_inj.mp
    exact Unpacked.pack_sub (by decide) _ _
  multiply_negate x y := by
    left
    apply Float32.toBits_inj.mp
    apply UInt32.toBitVec_inj.mp
    exact Unpacked.pack_neg_mul (by decide) _ _

theorem signLaws_strictFloat : SignLaws StrictFloat where
  negatesBack x := .inl (congrArg StrictFloat.mk
    (oneNaN_float.same_iff.mp (signLaws_float.negatesBack x.value)))
  subtract_eq x y := .inl (congrArg StrictFloat.mk
    (oneNaN_float.same_iff.mp (signLaws_float.subtract_eq x.value y.value)))
  multiply_negate x y := .inl (congrArg StrictFloat.mk
    (oneNaN_float.same_iff.mp (signLaws_float.multiply_negate x.value y.value)))

theorem twoZeros_float : TwoZeros Float := by
  intro x
  have hzero : (Scalar.zero : Float) = 0 := by decide
  have hnegative : negate (Scalar.zero : Float) = -0 := by decide
  have hnan : (0 : Float) ≠ Float.nan := by decide
  have hnan' : (-0 : Float) ≠ Float.nan := by decide
  rw [hnegative, hzero]
  show (x == Float.ofBits 0) = true ↔ _
  rw [show Float.ofBits 0 = 0 by decide, Float.beq_iff_ne_nan_and_eq]
  grind

theorem twoZeros_float32 : TwoZeros Float32 := by
  intro x
  have hzero : (Scalar.zero : Float32) = 0 := by decide
  have hnegative : negate (Scalar.zero : Float32) = -0 := by decide
  have hnan : (0 : Float32) ≠ Float32.nan := by decide
  have hnan' : (-0 : Float32) ≠ Float32.nan := by decide
  rw [hnegative, hzero]
  show (x == Float32.ofBits 0) = true ↔ _
  rw [show Float32.ofBits 0 = 0 by decide, Float32.beq_iff_ne_nan_and_eq]
  grind

end DecisionDiagrams
