/-! Decimal numerals as they are written: digits, a point, an exponent. A numeral keeps its
spelling, and its value is a natural number times a power of ten. -/
namespace DecisionDiagrams

structure Exponent where
  mark : Char
  sign : Option Char
  digits : List Char
  deriving DecidableEq, Repr

structure Numeral where
  whole : List Char
  /-- The digits after the point, which may be none; `none` if there is no point. -/
  fraction : Option (List Char)
  exponent : Option Exponent
  deriving DecidableEq, Repr

def appendDigit (n : Nat) (c : Char) : Nat := 10 * n + (c.toNat - '0'.toNat)

/-- The natural number that a run of digits writes. Long runs are read in halves, which keeps
most of the products short. -/
def natOfDigits (digits : List Char) : Nat :=
  if digits.length ≤ 64 then digits.foldl appendDigit 0
  else
    let low := digits.length / 2
    let high := digits.length - low
    natOfDigits (digits.take high) * Nat.pow 10 low + natOfDigits (digits.drop high)
termination_by digits.length
decreasing_by all_goals simp only [List.length_take, List.length_drop]; omega

namespace Exponent

def spelling (e : Exponent) : List Char := e.mark :: (e.sign.toList ++ e.digits)

/-- Once its digits write this much, an exponent ignores the digits that follow. -/
def limit : Nat := 65536

def appendWithinLimit (n : Nat) (c : Char) : Nat := if n < limit then appendDigit n c else n

def magnitude (e : Exponent) : Nat := e.digits.foldl appendWithinLimit 0

def value (e : Exponent) : Int :=
  if e.sign = some '-' then -(e.magnitude : Int) else e.magnitude

/-- The exponent at the start of a text. Without a digit there is none. -/
def scan? : List Char → Option (Exponent × List Char)
  | [] => none
  | mark :: rest =>
    if mark = 'e' ∨ mark = 'E' then
      let sign := rest.head?.filter fun c => c = '+' || c = '-'
      let rest := if sign.isSome then rest.tail else rest
      if rest.takeWhile Char.isDigit = [] then none
      else some (⟨mark, sign, rest.takeWhile Char.isDigit⟩, rest.dropWhile Char.isDigit)
    else none

theorem spelling_append_of_scan? {cs rest : List Char} {e : Exponent}
    (h : scan? cs = some (e, rest)) : e.spelling ++ rest = cs := by
  match cs with
  | [] => simp [scan?] at h
  | mark :: cs =>
    simp only [scan?, Option.ite_none_right_eq_some, Option.ite_none_left_eq_some] at h
    obtain ⟨-, -, h⟩ := h
    cases h
    cases cs with
    | nil => simp [spelling]
    | cons c cs =>
      by_cases hc : c = '+' ∨ c = '-'
      · simp [spelling, hc, Option.filter]
      · simp [spelling, not_or.mp hc]

end Exponent

namespace Numeral

def spelling (n : Numeral) : List Char :=
  n.whole ++ n.fraction.elim [] (fun digits => '.' :: digits) ++
    n.exponent.elim [] Exponent.spelling

/-- The digits on both sides of the point, without the zeros in front. -/
def significant (n : Numeral) : List Char :=
  (n.whole ++ n.fraction.getD []).dropWhile (· = '0')

/-- The value is `n.mantissa * 10 ^ n.scale`. -/
def mantissa (n : Numeral) : Nat := natOfDigits n.significant

def scale (n : Numeral) : Int :=
  n.exponent.elim 0 Exponent.value - ((n.fraction.getD []).length : Int)

/-- The value is below `10 ^ n.order`, and not below a tenth of it unless it is zero. -/
def order (n : Numeral) : Int := n.significant.length + n.scale

def withExponent (n : Numeral) (rest : List Char) : Numeral × List Char :=
  match Exponent.scan? rest with
  | some (e, rest) => ({ n with exponent := some e }, rest)
  | none => (n, rest)

/-- The longest numeral at the start of a text. A digit must stand on one side of the point. -/
def scan? (cs : List Char) : Option (Numeral × List Char) :=
  let whole := cs.takeWhile Char.isDigit
  match cs.dropWhile Char.isDigit with
  | '.' :: rest =>
    let digits := rest.takeWhile Char.isDigit
    if whole = [] ∧ digits = [] then none
    else some (withExponent ⟨whole, some digits, none⟩ (rest.dropWhile Char.isDigit))
  | rest => if whole = [] then none else some (withExponent ⟨whole, none, none⟩ rest)

theorem spelling_withExponent {n : Numeral} (h : n.exponent = none) (rest : List Char) :
    (n.withExponent rest).1.spelling ++ (n.withExponent rest).2 = n.spelling ++ rest := by
  unfold withExponent
  split
  next e rest' he => simp [spelling, h, ← Exponent.spelling_append_of_scan? he]
  next => rfl

/-- A numeral is cut off the text as it is written there. -/
theorem spelling_append_of_scan? {cs rest : List Char} {n : Numeral}
    (h : scan? cs = some (n, rest)) : n.spelling ++ rest = cs := by
  simp only [scan?] at h
  split at h
  next tail htail =>
    rw [Option.ite_none_left_eq_some, Option.some.injEq] at h
    have hspell := spelling_withExponent
      (n := ⟨cs.takeWhile Char.isDigit, some (tail.takeWhile Char.isDigit), none⟩) rfl
      (tail.dropWhile Char.isDigit)
    rw [h.2] at hspell
    rw [hspell]
    simp [spelling, ← htail]
  next =>
    rw [Option.ite_none_left_eq_some, Option.some.injEq] at h
    have hspell := spelling_withExponent
      (n := ⟨cs.takeWhile Char.isDigit, none, none⟩) rfl (cs.dropWhile Char.isDigit)
    rw [h.2] at hspell
    rw [hspell]
    simp [spelling]

theorem withExponent_whole (n : Numeral) (rest : List Char) :
    (n.withExponent rest).1.whole = n.whole := by
  unfold withExponent; split <;> rfl

theorem withExponent_fraction (n : Numeral) (rest : List Char) :
    (n.withExponent rest).1.fraction = n.fraction := by
  unfold withExponent; split <;> rfl

theorem spelling_ne_nil_of_scan? {cs rest : List Char} {n : Numeral}
    (h : scan? cs = some (n, rest)) : n.spelling ≠ [] := by
  simp only [scan?] at h
  split at h
  next tail _ =>
    rw [Option.ite_none_left_eq_some, Option.some.injEq] at h
    have hfraction := congrArg (·.1.fraction) h.2
    simp only [withExponent_fraction] at hfraction
    simp [spelling, ← hfraction]
  next =>
    rw [Option.ite_none_left_eq_some, Option.some.injEq] at h
    have hwhole := congrArg (·.1.whole) h.2
    simp only [withExponent_whole] at hwhole
    simp [spelling, ← hwhole, h.1]

end Numeral

end DecisionDiagrams
