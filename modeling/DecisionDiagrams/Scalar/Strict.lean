import DecisionDiagrams.Scalar.Float

/-! Double precision in which no numeral may be out of range. Arithmetic still reaches the
infinities. -/
namespace DecisionDiagrams

structure StrictFloat where
  value : Float
  deriving DecidableEq, Hashable

namespace StrictFloat

instance : Scalar StrictFloat where
  zero := ⟨Scalar.zero⟩
  one := ⟨Scalar.one⟩
  nan := ⟨Scalar.nan⟩
  add x y := ⟨Scalar.add x.value y.value⟩
  subtract x y := ⟨Scalar.subtract x.value y.value⟩
  multiply x y := ⟨Scalar.multiply x.value y.value⟩
  divide x y := ⟨Scalar.divide x.value y.value⟩
  negate x := ⟨Scalar.negate x.value⟩
  isNaN x := Scalar.isNaN x.value
  isZero x := Scalar.isZero x.value
  numericEq x y := Scalar.numericEq x.value y.value
  decode x := Scalar.decode x.value
  ofNumeral? n := ((Scalar.ofNumeral? n).filter fun x => !Float.isInf x).map StrictFloat.mk
  text x := Scalar.text x.value

end StrictFloat

end DecisionDiagrams
