import DecisionDiagrams.Proofs.Grammar.Nesting
import Mathlib.Data.List.Chain

/-! Writing tokens one after another. In a phrase no operand stands right behind another, so its
tokens are found again however they are spaced. -/
namespace DecisionDiagrams

inductive Spaced : List Char → List (Token Numeral) → Prop where
  | nil : Spaced [] []
  | separator {c : Char} {cs : List Char} {ts : List (Token Numeral)} (hc : isSeparator c = true)
      (h : Spaced cs ts) : Spaced (c :: cs) ts
  | token (t : Token Numeral) {cs : List Char} {ts : List (Token Numeral)} (h : Spaced cs ts) :
      Spaced (t.spelling ++ cs) (t :: ts)

theorem Spaced.append {cs ds : List Char} {ts us : List (Token Numeral)} (h : Spaced cs ts)
    (h' : Spaced ds us) : Spaced (cs ++ ds) (ts ++ us) := by
  induction h with
  | nil => exact h'
  | separator hc h ih => exact .separator hc ih
  | token t h ih =>
    rw [List.append_assoc]
    exact .token t ih

theorem Cut.spaced {cs : List Char} {ts : List (Token Numeral)} (h : Cut cs ts) : Spaced cs ts := by
  induction h with
  | nil => exact .nil
  | separator hc h ih => exact .separator hc ih
  | token ht h ih => exact .token _ ih

namespace Token

variable {α : Type}

def isOperand : Token α → Bool
  | literal _ => true
  | name _ => true
  | symbol _ => false
  | stray _ => false

/-- No operand stands right behind another. -/
def Apart (ts : List (Token α)) : Prop :=
  ts.IsChain fun t t' => t.isOperand = false ∨ t'.isOperand = false

/-- A numeral ends where no character of an operand follows. -/
theorem scan?_numeral {x : Numeral} (hx : x.IsLexeme) {rest : List Char}
    (hrest : ∀ c ∈ rest.head?, Nesting.isOperandChar c = false) :
    Numeral.scan? (x.spelling ++ rest) = some (x, rest) := by
  have hdigit (c : Char) (hc : c ∈ rest.head?) : c.isDigit = false := by
    have hchar := hrest c hc
    contrapose! hchar
    simpa using Nesting.isOperandChar_of_isDigit (by simpa using hchar)
  cases he : x.exponent with
  | some e =>
    have hnil : ∀ c ∈ ([] : List Char), c.isDigit = true := by simp
    obtain ⟨htake, hdrop⟩ := span_append hnil rest hdigit
    rw [List.nil_append] at htake hdrop
    rw [hx.scan?_exponent he, htake, hdrop, List.append_nil, ← he]
  | none =>
    have hpoint (c : Char) (hc : c ∈ rest.head?) : c ≠ '.' := by
      rintro rfl
      exact absurd (hrest '.' hc) (by decide)
    have hexponent : Exponent.scan? rest = none := by
      cases rest with
      | nil => rfl
      | cons c rest =>
        refine if_neg ?_
        rintro (rfl | rfl)
        · exact absurd (hrest 'e' rfl) (by decide)
        · exact absurd (hrest 'E' rfl) (by decide)
    rw [hx.scan?_withExponent he rest fun c hc => ⟨hdigit c hc, fun _ => hpoint c hc⟩,
      Numeral.withExponent, hexponent]

/-- A token is the longest at its place, unless it is an operand and a character of an operand
follows. -/
theorem IsLexeme.isLongest {t : Token Numeral} (ht : t.IsLexeme) {rest : List Char}
    (hrest : t.isOperand = true → ∀ c ∈ rest.head?, Nesting.isOperandChar c = false) :
    t.IsLongest rest := by
  obtain ⟨c, cs, hspelling⟩ := List.exists_cons_of_ne_nil (spelling_ne_nil ht)
  have hscan : Token.scan c (cs ++ rest) = (t, rest) := by
    cases t with
    | literal x =>
      obtain ⟨c', cs', hspelling', hhead⟩ := Numeral.IsLexeme.exists_head ht
      cases hspelling'.symm.trans hspelling
      have hc : isNameStart c = false := by
        rcases hhead with hdigit | rfl
        · exact isNameStart_of_isDigit hdigit
        · decide
      apply scan_literal hc
      rw [← List.cons_append, ← hspelling']
      exact scan?_numeral ht (hrest rfl)
    | name text =>
      obtain ⟨c', cs', htext, hc, hcs⟩ := ht
      cases htext.symm.trans hspelling
      have hchar (c : Char) (hc : c ∈ rest.head?) : isNameChar c = false := by
        have hchar := hrest rfl c hc
        contrapose! hchar
        simpa using Nesting.isOperandChar_of_isNameChar (by simpa using hchar)
      obtain ⟨htake, hdrop⟩ := span_append hcs rest hchar
      rw [scan_name hc, htake, hdrop, htext]
    | symbol s =>
      apply scan_symbol
      rw [← List.cons_append, ← hspelling]
      rfl
    | stray c' => exact absurd ht id
  have hlexeme : (Token.scan c (cs ++ rest)).1.IsLexeme := by rw [hscan]; exact ht
  have hlongest := isLongest_scan hlexeme
  rwa [hscan] at hlongest

end Token

/-- Behind an operand no character of an operand follows. -/
theorem Spaced.head_of_apart {cs : List Char} {t : Token Numeral} {ts : List (Token Numeral)}
    (h : Spaced cs ts) (hlexeme : ∀ t ∈ ts, t.IsLexeme) (hapart : Token.Apart (t :: ts))
    (ht : t.isOperand = true) : ∀ c ∈ cs.head?, Nesting.isOperandChar c = false := by
  cases h with
  | nil => simp
  | separator hc h =>
    rintro c ⟨⟩
    rcases isSeparator_iff.mp hc with rfl | rfl | rfl | rfl <;> decide
  | token t' h =>
    have ht' : t'.isOperand = false :=
      (List.isChain_cons_cons.mp hapart).1.resolve_left (by simp [ht])
    cases t' with
    | symbol s => cases s <;> (rintro c ⟨⟩; decide)
    | stray c => exact absurd (hlexeme _ List.mem_cons_self) id
    | literal x => cases ht'
    | name text => cases ht'

/-- Tokens that are apart are cut off as they are written. -/
theorem Spaced.cut {cs : List Char} {ts : List (Token Numeral)} (h : Spaced cs ts)
    (hlexeme : ∀ t ∈ ts, t.IsLexeme) (hapart : Token.Apart ts) : Cut cs ts := by
  induction h with
  | nil => exact .nil
  | separator hc h ih => exact .separator hc (ih hlexeme hapart)
  | token t h ih =>
    obtain ⟨ht, hts⟩ := List.forall_mem_cons.mp hlexeme
    exact .token (ht.isLongest (h.head_of_apart hts hapart)) (ih hts (List.IsChain.tail hapart))

namespace Derivation

variable {α : Type}

theorem apart_tokens {p : Nat} (d : Derivation α p) : Token.Apart d.tokens := by
  induction d with
  | literal x => exact .singleton _
  | name text => exact .singleton _
  | group inner ih =>
    refine List.isChain_cons.mpr ⟨fun t ht => .inl rfl, ?_⟩
    refine List.isChain_append.mpr ⟨ih, .singleton _, ?_⟩
    rintro t ht t' ⟨⟩
    exact .inr rfl
  | prefixed s op hs operand ih => exact List.isChain_cons.mpr ⟨fun t ht => .inl rfl, ih⟩
  | infixed s op hs hp left right ihLeft ihRight =>
    refine List.isChain_append.mpr ⟨ihLeft, ?_, ?_⟩
    · exact List.isChain_cons.mpr ⟨fun t ht => .inl rfl, ihRight⟩
    · rintro t ht t' ⟨⟩
      exact .inr rfl
  | tighter hp inner ih => exact ih

/-- A phrase is cut into its tokens however they are spaced. -/
theorem cut_iff_spaced {p : Nat} (d : Derivation Numeral p) {cs : List Char} :
    Cut cs d.tokens ↔ Spaced cs d.tokens ∧ ∀ t ∈ d.tokens, t.IsLexeme :=
  ⟨fun h => ⟨h.spaced, h.isLexeme⟩, fun h => h.1.cut h.2 d.apart_tokens⟩

end Derivation

end DecisionDiagrams
