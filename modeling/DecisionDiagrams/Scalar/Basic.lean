import DecisionDiagrams.Decimal.Numeral
import DecisionDiagrams.Decimal.Binary

/-! The values at the ends of a diagram. -/
namespace DecisionDiagrams

class Scalar (α : Type) where
  zero : α
  one : α
  /-- The one NaN that stands for all of them. -/
  nan : α
  add : α → α → α
  subtract : α → α → α
  multiply : α → α → α
  divide : α → α → α
  negate : α → α
  isNaN : α → Bool
  isZero : α → Bool
  /-- Numeric equality: the two zeros are equal, and a NaN equals nothing. -/
  numericEq : α → α → Bool
  /-- The parts that tell a number from every other one, also from an equal zero. -/
  decode : α → Decoded
  /-- The value that a numeral writes, unless the type refuses it. -/
  ofNumeral? : Numeral → Option α
  text : α → String

namespace Scalar

variable {α : Type} [Scalar α]

def ofBool (b : Bool) : α := if b then one else zero

/-- All NaNs are one value. -/
def canonical (x : α) : α := if isNaN x then nan else x

/-- The truth value of a number, for which everything but the zeros is true. -/
def isTrue (x : α) : Bool := !isZero x

end Scalar

end DecisionDiagrams
