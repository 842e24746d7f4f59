import DecisionDiagrams.Scalar.Basic
import DecisionDiagrams.Decimal.Binary

/-! Terminal values in double and in single precision. A numeral is rounded to the nearest
number, of two equally near ones to the even one; out of range it is an infinity or zero. -/
namespace DecisionDiagrams

/-- A mantissa and a scale that round as the numeral does. Beyond the order 400 on either side
everything rounds to an infinity or to zero. -/
def Numeral.withinReach (n : Numeral) : Nat × Int :=
  if n.significant = [] ∨ n.order < -400 then (0, 0)
  else if 400 < n.order then (1, 400)
  else (n.mantissa, n.scale)

/-- Rounds a numeral by a function of its mantissa, the sign of its scale and the size of it. -/
def Numeral.roundBy {α : Type} (ofScientific : Nat → Bool → Nat → α) (n : Numeral) : α :=
  let (mantissa, scale) := n.withinReach
  ofScientific mantissa (scale < 0) scale.natAbs

instance hashableFloat : Hashable Float where
  hash x := hash x.toBits

instance hashableFloat32 : Hashable Float32 where
  hash x := hash x.toBits

instance : Scalar Float where
  zero := Float.ofBits 0
  one := Float.ofBits 0x3FF0000000000000
  nan := Float.ofBits 0x7FF8000000000000
  add := Float.add
  subtract := Float.sub
  multiply := Float.mul
  divide := Float.div
  negate := Float.neg
  isNaN := Float.isNaN
  isZero x := Float.beq x (Float.ofBits 0)
  numericEq := Float.beq
  decode x := BinaryLayout.binary64.decode x.toBits.toNat
  ofNumeral? n := some (n.roundBy Float.ofScientific)
  text x := BinaryLayout.binary64.text x.toBits.toNat

instance : Scalar Float32 where
  zero := Float32.ofBits 0
  one := Float32.ofBits 0x3F800000
  nan := Float32.ofBits 0x7FC00000
  add := Float32.add
  subtract := Float32.sub
  multiply := Float32.mul
  divide := Float32.div
  negate := Float32.neg
  isNaN := Float32.isNaN
  isZero x := Float32.beq x (Float32.ofBits 0)
  numericEq := Float32.beq
  decode x := BinaryLayout.binary32.decode x.toBits.toNat
  ofNumeral? n := some (n.roundBy Float32.ofScientific)
  text x := BinaryLayout.binary32.text x.toBits.toNat

end DecisionDiagrams
