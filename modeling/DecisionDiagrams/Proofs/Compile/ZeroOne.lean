import DecisionDiagrams.Proofs.Compile.Equivalence

/-! Which formulas have diagrams of zeros and ones. A formula that is no literal has, whatever
literals are inside it. The diagram of a literal has the value of the literal. -/
namespace DecisionDiagrams

open Scalar

theorem Scalar.canonical_eq_ofBool_iff {α : Type} [Scalar α] [LawfulScalar α] {x : α} {b : Bool} :
    canonical x = ofBool b ↔ x = ofBool b := by
  constructor
  · intro h
    unfold canonical at h
    split at h
    next =>
      have hnan : isNaN (nan : α) = false := by rw [h, isNaN_ofBool]
      rw [LawfulScalar.isNaN_nan] at hnan
      cases hnan
    next => exact h
  · rintro rfl
    exact canonical_ofBool b

namespace Manager

variable {α : Type} [Scalar α] {m m' : Manager α} {e : Expr α} {d : Nat}

/-- A diagram that has one value everywhere is of zeros and ones exactly if the value is one of
them. -/
theorem isZeroOneValued_of_constant {x : α} (h : ∀ a : Assignment, m.value? a d = some x) :
    m.IsZeroOneValued d ↔ x = Scalar.zero ∨ x = Scalar.one := by
  constructor
  · intro hvalued
    have hvalue := hvalued #[]
    rw [h] at hvalue
    exact hvalue.imp Option.some.inj Option.some.inj
  · intro hx a
    rw [h]
    exact hx.imp (congrArg some) (congrArg some)

variable [LawfulScalar α]

theorem Encodes.isZeroOneValued (hm : m.WellFormed) (h : m.Encodes e d)
    (hroot : ∀ x, e ≠ .literal x) : m.IsZeroOneValued d := by
  intro a
  obtain ⟨x, hx, hsame⟩ := h.value hm (m.vars.nameTruth a.truth)
  obtain ⟨b, rfl⟩ := h.logical.exists_ofBool hroot hx
  rw [hm.value_nameTruth h.denotes.lt_size, ← canonical_eq_iff,
    hm.table.canonical_value a.truth h.denotes.lt_size, canonical_ofBool] at hsame
  rw [value?_of_lt h.denotes.lt_size, hsame]
  cases b with
  | false => exact .inl rfl
  | true => exact .inr rfl

theorem Encodes.value?_literal (hm : m.WellFormed) {x : α} (h : m.Encodes (.literal x) d)
    (a : Assignment) : m.value? a d = some (canonical x) := by
  obtain ⟨y, hy, hsame⟩ := h.denotes.value a.truth
  cases hy
  rw [value?_of_lt h.denotes.lt_size, ← hm.table.canonical_value a.truth h.denotes.lt_size]
  exact congrArg some (canonical_eq_iff.mpr hsame)

theorem Encodes.isZeroOneValued_iff (hm : m.WellFormed) (h : m.Encodes e d) :
    m.IsZeroOneValued d ↔ ∀ x, e = .literal x → x = Scalar.zero ∨ x = Scalar.one := by
  have hliteral {x : α} (he : e = .literal x) :
      m.IsZeroOneValued d ↔ x = Scalar.zero ∨ x = Scalar.one := by
    subst he
    rw [isZeroOneValued_of_constant fun a => h.value?_literal hm a]
    exact or_congr (canonical_eq_ofBool_iff (b := false)) (canonical_eq_ofBool_iff (b := true))
  constructor
  · intro hvalued x he
    exact (hliteral he).mp hvalued
  · intro hx
    by_cases hroot : ∃ x, e = .literal x
    · obtain ⟨x, he⟩ := hroot
      exact (hliteral he).mpr (hx x he)
    · exact h.isZeroOneValued hm fun x he => hroot ⟨x, he⟩

/-- From the encoding of a formula on, its diagram is zero or one everywhere, unless the formula is
a literal with another value. Then it has the value of the literal everywhere. -/
theorem encoding_zero_one (hm : m.Reachable) {text : String} (h : m.encode text = (.ok d, m'))
    {requests : List (Request α)} (hrequests : ∀ r ∈ requests, r ≠ .clear) :
    ∃ e : Expr α, parse text = .ok e ∧
      ((m'.afterAll requests).IsZeroOneValued d ↔
        ∀ x, e = .literal x → x = Scalar.zero ∨ x = Scalar.one) ∧
      ∀ x, e = .literal x → ∀ a, (m'.afterAll requests).value? a d = some (canonical x) := by
  obtain ⟨e, hparse, hm', hd⟩ := hm.wellFormed.encodes_of_encode h
  have hkeeps := hm'.keeps_afterAll hrequests
  have hlater := hd.keeps hm' hkeeps
  refine ⟨e, hparse, hlater.isZeroOneValued_iff hkeeps.wellFormed, ?_⟩
  rintro x rfl a
  exact hlater.value?_literal hkeeps.wellFormed a

/-- The literal in `p || 2` does no harm. -/
theorem encoding_zero_one_of_disjunction :
    let m := ((initial : Manager Float).indicator "q").2
    m.Reachable ∧ ∃ d m', m.encode "p || 2" = (.ok d, m') ∧
      (m'.afterAll [.indicator "r"]).IsZeroOneValued d := by
  intro m
  have hm : m.Reachable := ⟨[.indicator "q"], rfl⟩
  let e : Expr Float := .apply .or [.variable "p",
    .literal (Numeral.roundBy Float.ofScientific ⟨['2'], none, none⟩)]
  have hlex : lex "p || 2" = ⟨[⟨⟨1, 1⟩, .name ['p']⟩, ⟨⟨1, 3⟩, .symbol .bars⟩,
      ⟨⟨1, 6⟩, .literal ⟨['2'], none, none⟩⟩], ⟨1, 7⟩⟩ := by decide +kernel
  have hparse : parse "p || 2" = .ok e := (parse_eq_of_lex (by decide +kernel) hlex).trans rfl
  obtain ⟨d, m', hencode⟩ := hm.wellFormed.exists_encode hparse rfl
  have hrequests : ∀ r ∈ [Request.indicator "r"], r ≠ (.clear : Request Float) := by simp
  obtain ⟨e', hparse', hvalued, -⟩ := encoding_zero_one hm hencode hrequests
  cases hparse.symm.trans hparse'
  exact ⟨hm, d, m', hencode, hvalued.mpr (by simp [e])⟩

/-- A formula that is the literal 2 alone has a diagram that is two everywhere. -/
theorem encoding_of_two_not_zero_one :
    (initial : Manager Float).Reachable ∧ ∃ d m',
      (initial : Manager Float).encode "2" = (.ok d, m') ∧ m'.value? #[] d = some 2 ∧
        ¬m'.IsZeroOneValued d := by
  have hm : (initial : Manager Float).Reachable := ⟨[], rfl⟩
  have hlex : lex "2" = ⟨[⟨⟨1, 1⟩, .literal ⟨['2'], none, none⟩⟩], ⟨1, 2⟩⟩ := by decide +kernel
  have htwo : Numeral.roundBy Float.ofScientific ⟨['2'], none, none⟩ = 2 := by decide +kernel
  have hparse : (parse "2" : Except SyntaxError (Expr Float)) = .ok (.literal 2) := by
    rw [← htwo]
    exact (parse_eq_of_lex (by decide +kernel) hlex).trans rfl
  obtain ⟨d, m', hencode⟩ := hm.wellFormed.exists_encode hparse rfl
  obtain ⟨e, heq, hm', hd⟩ := hm.wellFormed.encodes_of_encode hencode
  cases hparse.symm.trans heq
  have hcanonical : canonical (2 : Float) = 2 := by decide
  refine ⟨hm, d, m', hencode, by rw [hd.value?_literal hm', hcanonical], ?_⟩
  rw [hd.isZeroOneValued_iff hm']
  intro h
  exact absurd (h 2 rfl) (by decide)

end Manager

end DecisionDiagrams
