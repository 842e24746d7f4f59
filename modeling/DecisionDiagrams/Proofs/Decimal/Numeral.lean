import DecisionDiagrams.Decimal.Numeral
import Mathlib.Data.List.TakeWhile

/-! The spellings of numerals. The numeral that is scanned is the longest one at its place. -/
namespace DecisionDiagrams

structure Exponent.IsLexeme (e : Exponent) : Prop where
  mark : e.mark = 'e' ∨ e.mark = 'E'
  sign : ∀ c ∈ e.sign, c = '+' ∨ c = '-'
  digits : ∀ c ∈ e.digits, c.isDigit = true
  ne_nil : e.digits ≠ []

structure Numeral.IsLexeme (n : Numeral) : Prop where
  whole : ∀ c ∈ n.whole, c.isDigit = true
  fraction : ∀ digits ∈ n.fraction, ∀ c ∈ digits, c.isDigit = true
  ne_nil : n.whole ≠ [] ∨ ∃ digits, n.fraction = some digits ∧ digits ≠ []
  exponent : ∀ e ∈ n.exponent, e.IsLexeme

/-- A run of characters ends where the first other character stands. -/
theorem span_append {p : Char → Bool} {cs : List Char} (h : ∀ c ∈ cs, p c = true)
    (rest : List Char) (hrest : ∀ c ∈ rest.head?, p c = false) :
    (cs ++ rest).takeWhile p = cs ∧ (cs ++ rest).dropWhile p = rest := by
  rw [List.takeWhile_append_of_pos h, List.dropWhile_append_of_pos h]
  cases rest with
  | nil => simp
  | cons c rest =>
    have hc : ¬p c = true := by simp [hrest c rfl]
    rw [List.takeWhile_cons_of_neg hc, List.dropWhile_cons_of_neg hc, List.append_nil]
    exact ⟨rfl, rfl⟩

namespace Exponent

theorem isLexeme_of_scan? {cs rest : List Char} {e : Exponent} (h : scan? cs = some (e, rest)) :
    e.IsLexeme := by
  cases cs with
  | nil => cases h
  | cons mark cs =>
    simp only [scan?, Option.ite_none_right_eq_some, Option.ite_none_left_eq_some] at h
    obtain ⟨hmark, hdigits, h⟩ := h
    cases h
    refine ⟨hmark, fun c hc => ?_, fun c hc => List.mem_takeWhile_imp hc, hdigits⟩
    have hsign := (Option.filter_eq_some_iff.mp hc).2
    simpa using hsign

/-- An exponent takes all the digits that follow it. -/
theorem IsLexeme.scan?_append {e : Exponent} (he : e.IsLexeme) (rest : List Char) :
    scan? (e.spelling ++ rest) =
      some ({ e with digits := e.digits ++ rest.takeWhile Char.isDigit },
        rest.dropWhile Char.isDigit) := by
  obtain ⟨mark, sign, digits⟩ := e
  obtain ⟨hmark, hsign, hdigits, hne⟩ := he
  have htake : (digits ++ rest).takeWhile Char.isDigit = digits ++ rest.takeWhile Char.isDigit :=
    List.takeWhile_append_of_pos hdigits
  have hdrop : (digits ++ rest).dropWhile Char.isDigit = rest.dropWhile Char.isDigit :=
    List.dropWhile_append_of_pos hdigits
  cases sign with
  | some c =>
    have hc : (c = '+' || c = '-') = true := by simpa using hsign c rfl
    simp [spelling, scan?, hmark, Option.filter, hc, htake, hdrop, hne]
  | none =>
    obtain ⟨c, cs, rfl⟩ := List.exists_cons_of_ne_nil hne
    have hdigit : c.isDigit = true := hdigits c List.mem_cons_self
    have hc : (c = '+' || c = '-') = false := by
      rw [Bool.or_eq_false_iff]
      constructor
      · exact decide_eq_false fun h => absurd (h ▸ hdigit) (by decide)
      · exact decide_eq_false fun h => absurd (h ▸ hdigit) (by decide)
    rw [List.cons_append] at htake hdrop
    simp [spelling, scan?, hmark, Option.filter, hc, htake, hdrop]

end Exponent

namespace Numeral

theorem not_isDigit_of_mark {e : Exponent} (he : e.IsLexeme) : e.mark.isDigit = false := by
  rcases he.mark with h | h
  · rw [h]; decide
  · rw [h]; decide

theorem isLexeme_withExponent {n : Numeral} (hn : n.IsLexeme) (rest : List Char) :
    (n.withExponent rest).1.IsLexeme := by
  unfold withExponent
  split
  next e rest he =>
    refine ⟨hn.whole, hn.fraction, hn.ne_nil, fun e' he' => ?_⟩
    cases he'
    exact Exponent.isLexeme_of_scan? he
  next => exact hn

theorem isLexeme_of_scan? {cs rest : List Char} {n : Numeral} (h : scan? cs = some (n, rest)) :
    n.IsLexeme := by
  have hwhole (c : Char) (hc : c ∈ cs.takeWhile Char.isDigit) : c.isDigit = true :=
    List.mem_takeWhile_imp hc
  simp only [scan?] at h
  split at h
  next tail htail =>
    rw [Option.ite_none_left_eq_some, Option.some.injEq] at h
    obtain ⟨hne, h⟩ := h
    have hn : (⟨cs.takeWhile Char.isDigit, some (tail.takeWhile Char.isDigit), none⟩ :
        Numeral).IsLexeme := by
      refine ⟨hwhole, ?_, ?_, by simp⟩
      · rintro digits ⟨⟩ c hc
        exact List.mem_takeWhile_imp hc
      · exact (not_and_or.mp hne).imp_right fun hne => ⟨_, rfl, hne⟩
    simpa only [h] using isLexeme_withExponent hn (tail.dropWhile Char.isDigit)
  next =>
    rw [Option.ite_none_left_eq_some, Option.some.injEq] at h
    obtain ⟨hne, h⟩ := h
    have hn : (⟨cs.takeWhile Char.isDigit, none, none⟩ : Numeral).IsLexeme :=
      ⟨hwhole, by simp, .inl hne, by simp⟩
    simpa only [h] using isLexeme_withExponent hn (cs.dropWhile Char.isDigit)

theorem length_withExponent_le (n : Numeral) (rest : List Char) :
    (n.withExponent rest).2.length ≤ rest.length := by
  unfold withExponent
  split
  next e rest' he =>
    rw [← Exponent.spelling_append_of_scan? he, List.length_append]
    exact Nat.le_add_left _ _
  next => exact Nat.le_refl _

theorem withExponent_spelling {n : Numeral} {e : Exponent} (he : e.IsLexeme) (rest : List Char) :
    n.withExponent (e.spelling ++ rest) =
      ({ n with exponent := some { e with digits := e.digits ++ rest.takeWhile Char.isDigit } },
        rest.dropWhile Char.isDigit) := by
  simp only [withExponent, he.scan?_append]

/-- A numeral without exponent ends where neither a digit nor the point goes on with it. -/
theorem IsLexeme.scan?_withExponent {n : Numeral} (hn : n.IsLexeme) (hnone : n.exponent = none)
    (rest : List Char)
    (hrest : ∀ c ∈ rest.head?, c.isDigit = false ∧ (n.fraction = none → c ≠ '.')) :
    scan? (n.spelling ++ rest) = some (n.withExponent rest) := by
  obtain ⟨whole, fraction, exponent⟩ := n
  obtain ⟨hwhole, hfraction, hne, -⟩ := hn
  cases hnone
  have hdigit (c : Char) (hc : c ∈ rest.head?) : c.isDigit = false := (hrest c hc).1
  cases fraction with
  | some digits =>
    obtain ⟨htake, hdrop⟩ := span_append hwhole ('.' :: (digits ++ rest))
      (by rintro c ⟨⟩; decide)
    obtain ⟨htake', hdrop'⟩ := span_append (hfraction digits rfl) rest hdigit
    have hne' : ¬(whole = [] ∧ digits = []) := by
      rintro ⟨rfl, rfl⟩
      simp at hne
    simp [spelling, scan?, htake, hdrop, htake', hdrop', hne']
  | none =>
    obtain ⟨htake, hdrop⟩ := span_append hwhole rest hdigit
    have hne' : whole ≠ [] := by simpa using hne
    simp only [spelling, scan?, Option.elim_none, List.append_nil, htake, hdrop]
    split
    next => exact absurd rfl ((hrest '.' rfl).2 rfl)
    next => rw [if_neg hne']

theorem IsLexeme.without_exponent {n : Numeral} (hn : n.IsLexeme) :
    ({ n with exponent := none } : Numeral).IsLexeme :=
  ⟨hn.whole, hn.fraction, hn.ne_nil, by simp⟩

theorem spelling_of_exponent {n : Numeral} {e : Exponent} (he : n.exponent = some e) :
    n.spelling = ({ n with exponent := none } : Numeral).spelling ++ e.spelling := by
  simp [spelling, he]

/-- An exponent takes the digits that follow it, and nothing else does. -/
theorem IsLexeme.scan?_exponent {n : Numeral} (hn : n.IsLexeme) {e : Exponent}
    (he : n.exponent = some e) (rest : List Char) :
    scan? (n.spelling ++ rest) =
      some
        ({ n with exponent := some { e with digits := e.digits ++ rest.takeWhile Char.isDigit } },
          rest.dropWhile Char.isDigit) := by
  have hlexeme := hn.exponent e he
  have hmark (c : Char) (hc : c ∈ (e.spelling ++ rest).head?) :
      c.isDigit = false ∧ (n.fraction = none → c ≠ '.') := by
    obtain rfl : e.mark = c := Option.some.inj hc
    refine ⟨not_isDigit_of_mark hlexeme, fun _ hpoint => ?_⟩
    rcases hlexeme.mark with h | h
    · rw [h] at hpoint; cases hpoint
    · rw [h] at hpoint; cases hpoint
  rw [spelling_of_exponent he, List.append_assoc,
    hn.without_exponent.scan?_withExponent rfl _ hmark, withExponent_spelling hlexeme]

/-- A numeral is read back from its spelling. -/
theorem IsLexeme.scan?_spelling {n : Numeral} (hn : n.IsLexeme) :
    scan? n.spelling = some (n, []) := by
  cases he : n.exponent with
  | none => simpa [withExponent, Exponent.scan?] using hn.scan?_withExponent he [] (by simp)
  | some e => simpa [← he] using hn.scan?_exponent he []

theorem IsLexeme.eq_of_spelling_eq {n n' : Numeral} (hn : n.IsLexeme) (hn' : n'.IsLexeme)
    (h : n.spelling = n'.spelling) : n = n' := by
  have hscan := hn.scan?_spelling
  rw [h, hn'.scan?_spelling] at hscan
  cases hscan
  rfl

theorem not_isDigit_of_head? {cs : List Char} {c : Char}
    (hc : c ∈ (cs.dropWhile Char.isDigit).head?) : c.isDigit = false := by
  have hhead := List.head?_dropWhile_not Char.isDigit cs
  rw [Option.mem_def.mp hc] at hhead
  exact hhead

def appendDigits (n : Numeral) (more : List Char) : Numeral :=
  match n.fraction with
  | some digits => { n with fraction := some (digits ++ more) }
  | none => { n with whole := n.whole ++ more }

/-- A numeral without point that goes on with a point and perhaps digits. -/
def appendPoint (n : Numeral) (digits : List Char) : Numeral := { n with fraction := some digits }

section Append

variable {n : Numeral} {more : List Char}

theorem spelling_appendDigits (he : n.exponent = none) :
    (n.appendDigits more).spelling = n.spelling ++ more := by
  unfold appendDigits
  split
  next digits hfraction => simp [spelling, he, hfraction]
  next hfraction => simp [spelling, he, hfraction]

theorem exponent_appendDigits : (n.appendDigits more).exponent = n.exponent := by
  unfold appendDigits
  split <;> rfl

theorem spelling_appendPoint (he : n.exponent = none) (hfraction : n.fraction = none) :
    (n.appendPoint more).spelling = n.spelling ++ '.' :: more := by
  simp [spelling, appendPoint, he, hfraction]

theorem IsLexeme.appendDigits (hn : n.IsLexeme) (hmore : ∀ c ∈ more, c.isDigit = true) :
    (n.appendDigits more).IsLexeme := by
  unfold Numeral.appendDigits
  split
  next digits hfraction =>
    refine ⟨hn.whole, ?_, ?_, hn.exponent⟩
    · rintro _ ⟨⟩
      exact List.forall_mem_append.mpr ⟨hn.fraction digits hfraction, hmore⟩
    · refine hn.ne_nil.imp_right ?_
      rintro ⟨digits', hfraction', hne⟩
      cases hfraction.symm.trans hfraction'
      exact ⟨_, rfl, by simp [hne]⟩
  next hfraction =>
    refine ⟨List.forall_mem_append.mpr ⟨hn.whole, hmore⟩, hn.fraction, .inl ?_, hn.exponent⟩
    have hne : n.whole ≠ [] := by simpa [hfraction] using hn.ne_nil
    simp [hne]

theorem IsLexeme.appendPoint (hn : n.IsLexeme) (hfraction : n.fraction = none)
    (hmore : ∀ c ∈ more, c.isDigit = true) : (n.appendPoint more).IsLexeme := by
  have hne : n.whole ≠ [] := by simpa [hfraction] using hn.ne_nil
  refine ⟨hn.whole, ?_, .inl hne, hn.exponent⟩
  rintro _ ⟨⟩
  exact hmore

end Append

theorem mem_takeWhile_isDigit {cs : List Char} :
    ∀ c ∈ cs.takeWhile Char.isDigit, c.isDigit = true := fun _ => List.mem_takeWhile_imp

/-- The scanned numeral reaches at least as far as any other numeral at its place. -/
theorem IsLexeme.scan?_append {n : Numeral} (hn : n.IsLexeme) (rest : List Char) :
    ∃ r, scan? (n.spelling ++ rest) = some r ∧ r.2.length ≤ rest.length := by
  cases he : n.exponent with
  | some e => exact ⟨_, hn.scan?_exponent he rest, rest.length_dropWhile_le Char.isDigit⟩
  | none =>
    -- Without an exponent the numeral takes the digits that follow, and perhaps a point.
    let longer := n.appendDigits (rest.takeWhile Char.isDigit)
    have hlonger : longer.IsLexeme := hn.appendDigits mem_takeWhile_isDigit
    have he' : longer.exponent = none := exponent_appendDigits.trans he
    have hspelling : n.spelling ++ rest = longer.spelling ++ rest.dropWhile Char.isDigit := by
      rw [spelling_appendDigits he, List.append_assoc, List.takeWhile_append_dropWhile]
    have hrest := rest.length_dropWhile_le Char.isDigit
    rw [hspelling]
    by_cases hpoint : longer.fraction = none ∧ (rest.dropWhile Char.isDigit).head? = some '.'
    · obtain ⟨hfraction, tail, htail⟩ := hpoint.imp_right List.head?_eq_some_iff.mp
      have hpointed : (longer.appendPoint (tail.takeWhile Char.isDigit)).IsLexeme :=
        hlonger.appendPoint hfraction mem_takeWhile_isDigit
      have hscan := hpointed.scan?_withExponent he' (tail.dropWhile Char.isDigit)
        fun c hc => ⟨not_isDigit_of_head? hc, fun h => by cases h⟩
      rw [spelling_appendPoint he' hfraction, List.append_assoc, List.cons_append,
        List.takeWhile_append_dropWhile, ← htail] at hscan
      refine ⟨_, hscan, (length_withExponent_le _ _).trans ?_⟩
      have htailLe := tail.length_dropWhile_le Char.isDigit
      rw [htail, List.length_cons] at hrest
      omega
    · have hscan := hlonger.scan?_withExponent he' (rest.dropWhile Char.isDigit)
        fun c hc => ⟨not_isDigit_of_head? hc, fun hfraction h => hpoint ⟨hfraction, h ▸ hc⟩⟩
      exact ⟨_, hscan, (length_withExponent_le _ _).trans hrest⟩

theorem IsLexeme.exists_head {n : Numeral} (hn : n.IsLexeme) :
    ∃ c cs, n.spelling = c :: cs ∧ (c.isDigit = true ∨ c = '.') := by
  obtain ⟨whole, fraction, exponent⟩ := n
  cases whole with
  | cons c whole => exact ⟨c, _, rfl, .inl (hn.whole c List.mem_cons_self)⟩
  | nil =>
    obtain ⟨digits, rfl, -⟩ := hn.ne_nil.resolve_left (not_not.mpr rfl)
    exact ⟨'.', _, rfl, .inr rfl⟩

end Numeral

end DecisionDiagrams
