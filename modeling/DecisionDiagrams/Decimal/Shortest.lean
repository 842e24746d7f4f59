/-! The fewest decimal digits that single out a number from its neighbours, and positional
notation for them. -/
namespace DecisionDiagrams

/-- A number between two bounds, all three as multiples of one power of ten. The bounds
belong to the interval if `closed`. -/
structure Enclosure where
  low : Nat
  value : Nat
  high : Nat
  closed : Bool
  deriving Repr

namespace Enclosure

def Contains (e : Enclosure) (n : Nat) : Prop :=
  if e.closed then e.low ≤ n ∧ n ≤ e.high else e.low < n ∧ n < e.high

instance (e : Enclosure) (n : Nat) : Decidable (e.Contains n) := by
  unfold Contains; infer_instance

/-- The neighbour of the value on the grid of multiples of `unit` that lies in the interval,
as a count of units. Of two such neighbours it is the nearer one, and the upper of two that
are equally near. -/
def onGrid? (e : Enclosure) (unit : Nat) : Option Nat :=
  let below := e.value / unit
  let above := below + 1
  if e.Contains (above * unit) ∧
      (above * unit - e.value ≤ e.value - below * unit ∨ ¬e.Contains (below * unit)) then
    some above
  else if e.Contains (below * unit) then some below
  else none

/-- The count and the power of ten of the coarsest grid, at most `10 ^ places`, that has a
point in the interval. The finest grid has the value itself. -/
def shortest (e : Enclosure) : Nat → Nat × Nat
  | 0 => (e.value, 0)
  | places + 1 =>
    match e.onGrid? (Nat.pow 10 (places + 1)) with
    | some count => (count, places + 1)
    | none => e.shortest places

end Enclosure

/-- Positional notation of `count * 10 ^ exponent`. -/
def positional (count : Nat) (exponent : Int) : List Char :=
  let digits := Nat.toDigits 10 count
  if 0 ≤ exponent then digits ++ List.replicate exponent.toNat '0'
  else
    let places := (-exponent).toNat
    if places < digits.length then
      digits.take (digits.length - places) ++ '.' :: digits.drop (digits.length - places)
    else '0' :: '.' :: (List.replicate (places - digits.length) '0' ++ digits)

end DecisionDiagrams
