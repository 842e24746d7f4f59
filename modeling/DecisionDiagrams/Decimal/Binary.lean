import DecisionDiagrams.Decimal.Shortest

/-! Binary floating-point numbers read off their bits, and their shortest decimal text. -/
namespace DecisionDiagrams

structure BinaryLayout where
  fractionBits : Nat
  exponentBits : Nat
  deriving Repr

namespace BinaryLayout

def binary32 : BinaryLayout := ⟨23, 8⟩

def binary64 : BinaryLayout := ⟨52, 11⟩

/-- The exponent field of an infinity or a NaN. -/
def topExponent (l : BinaryLayout) : Nat := Nat.pow 2 l.exponentBits - 1

/-- The exponent of the last place of the smallest numbers. -/
def minExponent (l : BinaryLayout) : Int :=
  2 - (Nat.pow 2 (l.exponentBits - 1) : Nat) - l.fractionBits

def fraction (l : BinaryLayout) (bits : Nat) : Nat := bits % Nat.pow 2 l.fractionBits

def exponent (l : BinaryLayout) (bits : Nat) : Nat :=
  bits / Nat.pow 2 l.fractionBits % Nat.pow 2 l.exponentBits

def isNegative (l : BinaryLayout) (bits : Nat) : Bool :=
  bits / Nat.pow 2 (l.fractionBits + l.exponentBits) % 2 = 1

end BinaryLayout

/-- The number `sign * mantissa * 2 ^ exponent`, where the sign is one or minus one. -/
structure Decoded where
  mantissa : Nat
  exponent : Int
  sign : Int
  deriving DecidableEq, Hashable, Repr

/-- The parts of the number with these bits. An infinity or a NaN reads as if its exponent field
were an ordinary one. -/
def BinaryLayout.decode (l : BinaryLayout) (bits : Nat) : Decoded where
  mantissa :=
    if l.exponent bits = 0 then 2 * l.fraction bits
    else Nat.pow 2 l.fractionBits + l.fraction bits
  exponent := l.minExponent - 1 + l.exponent bits
  sign := if l.isNegative bits then -1 else 1

/-- The number `significand * 2 ^ exponent`. The gap below it is half the gap above it if
`narrow`. -/
structure BinaryNumber where
  significand : Nat
  exponent : Int
  narrow : Bool
  deriving Repr

namespace BinaryNumber

def ofBits (l : BinaryLayout) (bits : Nat) : BinaryNumber :=
  if l.exponent bits = 0 then ⟨l.fraction bits, l.minExponent, false⟩
  else
    ⟨Nat.pow 2 l.fractionBits + l.fraction bits, l.minExponent + (l.exponent bits - 1 : Nat),
      l.fraction bits = 0 && 1 < l.exponent bits⟩

/-- The power of ten that measures quarters of the last place exactly. -/
def decimalExponent (x : BinaryNumber) : Int := min (x.exponent - 2) 0

/-- The reals that round to the number reach half a gap to either side, bounds included if
its significand is even. -/
def enclosure (x : BinaryNumber) : Enclosure :=
  let quarter := Nat.pow 2 (x.exponent - 2).toNat * Nat.pow 5 (2 - x.exponent).toNat
  ⟨(4 * x.significand - if x.narrow then 1 else 2) * quarter, 4 * x.significand * quarter,
    (4 * x.significand + 2) * quarter, x.significand % 2 = 0⟩

/-- The shortest digits that read back as the number, without an exponent. -/
def text (x : BinaryNumber) : List Char :=
  let e := x.enclosure
  let (count, places) := e.shortest (Nat.toDigits 10 e.value).length
  positional count (places + x.decimalExponent)

end BinaryNumber

def BinaryLayout.text (l : BinaryLayout) (bits : Nat) : String :=
  let sign := if l.isNegative bits then ['-'] else []
  if l.exponent bits = l.topExponent then
    if l.fraction bits = 0 then String.ofList (sign ++ ['i', 'n', 'f']) else "NaN"
  else if l.exponent bits = 0 ∧ l.fraction bits = 0 then String.ofList (sign ++ ['0'])
  else String.ofList (sign ++ (BinaryNumber.ofBits l bits).text)

end DecisionDiagrams
