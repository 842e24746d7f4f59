import DecisionDiagrams.Grammar.Token
import DecisionDiagrams.Proofs.Decimal.Numeral

/-! The spellings of tokens. Lexing cuts a text into the longest tokens, which separators may
stand between. -/
namespace DecisionDiagrams

theorem isNameStart_of_isDigit {c : Char} (h : c.isDigit = true) : isNameStart c = false := by
  rw [isNameStart, Bool.or_eq_false_iff]
  constructor
  · unfold Char.isAlpha Char.isUpper Char.isLower
    rw [Char.isDigit] at h
    grind
  · exact decide_eq_false fun hc => absurd (hc ▸ h) (by decide)

theorem isSeparator_iff {c : Char} :
    isSeparator c = true ↔ c = ' ' ∨ c = '\t' ∨ c = '\r' ∨ c = '\n' := by
  simp [isSeparator, or_assoc]

namespace Token

def IsLexeme : Token Numeral → Prop
  | .literal n => n.IsLexeme
  | .name text => ∃ c cs, text = c :: cs ∧ isNameStart c = true ∧ ∀ c ∈ cs, isNameChar c = true
  | .symbol _ => True
  | .stray _ => False

structure IsLongest (t : Token Numeral) (rest : List Char) : Prop where
  isLexeme : t.IsLexeme
  longest {t' : Token Numeral} {rest' : List Char} (ht' : t'.IsLexeme)
    (h : t'.spelling ++ rest' = t.spelling ++ rest) : t'.spelling.length ≤ t.spelling.length

section Scan

variable {c : Char} {cs : List Char}

theorem scan_name (hc : isNameStart c = true) :
    scan c cs = (.name (c :: cs.takeWhile isNameChar), cs.dropWhile isNameChar) := by
  rw [scan, if_pos hc]

theorem scan_literal (hc : isNameStart c = false) {n : Numeral} {rest : List Char}
    (h : Numeral.scan? (c :: cs) = some (n, rest)) : scan c cs = (.literal n, rest) := by
  rw [scan, if_neg (by simp [hc])]
  simp only [h]

theorem scan_symbol {s : Symbol} {rest : List Char} (h : s.spelling ++ rest = c :: cs) :
    scan c cs = (.symbol s, rest) := by
  cases s <;> cases h <;> rfl

/-- A literal is scanned where one begins. -/
theorem scan_of_numeral {n : Numeral} (hn : n.IsLexeme) {rest : List Char}
    (h : n.spelling ++ rest = c :: cs) :
    ∃ n' rest', Numeral.scan? (n.spelling ++ rest) = some (n', rest') ∧
      scan c cs = (.literal n', rest') ∧ rest'.length ≤ rest.length := by
  obtain ⟨c', cs', hspelling, hhead⟩ := hn.exists_head
  obtain rfl : c' = c := by
    rw [hspelling] at h
    exact (List.cons.inj h).1
  have hc : isNameStart c' = false := by
    rcases hhead with hdigit | rfl
    · exact isNameStart_of_isDigit hdigit
    · decide
  obtain ⟨⟨n', rest'⟩, hr, hle⟩ := hn.scan?_append rest
  exact ⟨n', rest', hr, scan_literal hc (h ▸ hr), hle⟩

/-- A token is scanned from its spelling, or one that reaches further. -/
theorem IsLexeme.scan {t : Token Numeral} (ht : t.IsLexeme) {rest : List Char}
    (h : t.spelling ++ rest = c :: cs) :
    (scan c cs).1.IsLexeme ∧ (scan c cs).2.length ≤ rest.length ∧
      (rest = [] → Token.scan c cs = (t, [])) := by
  cases t with
  | literal n =>
    obtain ⟨n', rest', hr, hscan, hle⟩ := scan_of_numeral ht h
    rw [hscan]
    refine ⟨Numeral.isLexeme_of_scan? hr, hle, ?_⟩
    rintro rfl
    rw [List.append_nil, Numeral.IsLexeme.scan?_spelling ht] at hr
    cases hr
    rfl
  | name text =>
    obtain ⟨c', cs', rfl, hstart, hchars⟩ := ht
    obtain ⟨rfl, rfl⟩ : c' = c ∧ cs' ++ rest = cs := by simpa [spelling] using h
    rw [scan_name hstart, List.dropWhile_append_of_pos hchars, List.takeWhile_append_of_pos hchars]
    refine ⟨⟨c', _, rfl, hstart, ?_⟩, rest.length_dropWhile_le isNameChar, ?_⟩
    · exact List.forall_mem_append.mpr ⟨hchars, fun c => List.mem_takeWhile_imp⟩
    · rintro rfl
      simp
  | symbol s =>
    rw [scan_symbol h]
    refine ⟨trivial, le_rfl, ?_⟩
    rintro rfl
    rfl
  | stray c' => exact absurd ht id

end Scan

theorem spelling_ne_nil {t : Token Numeral} (ht : t.IsLexeme) : t.spelling ≠ [] := by
  cases t with
  | literal n =>
    obtain ⟨c, cs, hspelling, -⟩ := Numeral.IsLexeme.exists_head ht
    rw [spelling, hspelling]
    exact List.cons_ne_nil c cs
  | name text =>
    obtain ⟨c, cs, rfl, -, -⟩ := ht
    exact List.cons_ne_nil c cs
  | symbol s => cases s <;> simp [spelling, Symbol.spelling]
  | stray c => exact absurd ht id

theorem IsLexeme.eq_of_spelling_eq {t t' : Token Numeral} (ht : t.IsLexeme) (ht' : t'.IsLexeme)
    (h : t.spelling = t'.spelling) : t = t' := by
  obtain ⟨c, cs, hspelling⟩ := List.exists_cons_of_ne_nil (spelling_ne_nil ht)
  have hcs : t.spelling ++ [] = c :: cs := by rw [List.append_nil, hspelling]
  have hcs' : t'.spelling ++ [] = c :: cs := by rw [List.append_nil, ← h, hspelling]
  have hscan := (ht.scan hcs).2.2 rfl
  have hscan' := (ht'.scan hcs').2.2 rfl
  exact congrArg Prod.fst (hscan.symm.trans hscan')

variable {c : Char} {cs : List Char}

theorem isLongest_scan (h : (scan c cs).1.IsLexeme) : (scan c cs).1.IsLongest (scan c cs).2 where
  isLexeme := h
  longest {t' rest'} ht' heq := by
    have hle := (ht'.scan (heq.trans (spelling_append_scan c cs))).2.1
    have hlength := congrArg List.length heq
    rw [List.length_append, List.length_append] at hlength
    omega

/-- Scanning finds the longest token. -/
theorem IsLongest.scan_eq {t : Token Numeral} {rest : List Char} (h : t.IsLongest rest)
    (hcs : t.spelling ++ rest = c :: cs) : scan c cs = (t, rest) := by
  obtain ⟨hlexeme, hle, -⟩ := h.isLexeme.scan hcs
  have happend := (spelling_append_scan c cs).trans hcs.symm
  have hle' := h.longest hlexeme happend
  have hlength := congrArg List.length happend
  rw [List.length_append, List.length_append] at hlength
  obtain ⟨hspelling, hrest⟩ := List.append_inj happend (by omega)
  exact Prod.ext (hlexeme.eq_of_spelling_eq h.isLexeme hspelling) hrest

/-- What is scanned is a token, or a character that starts none. -/
theorem isLexeme_or_stray_scan (c : Char) (cs : List Char) :
    (scan c cs).1.IsLexeme ∨ ∃ c', (scan c cs).1 = .stray c' := by
  unfold scan
  split
  next hc => exact .inl ⟨c, _, rfl, hc, fun c => List.mem_takeWhile_imp⟩
  split
  next hn => exact .inl (Numeral.isLexeme_of_scan? hn)
  split
  next => exact .inl trivial
  next => exact .inr ⟨c, rfl⟩

theorem IsLexeme.not_isSeparator {t : Token Numeral} (ht : t.IsLexeme) (h : t.spelling = c :: cs) :
    isSeparator c = false := by
  rw [Bool.eq_false_iff, ne_eq, isSeparator_iff]
  intro hc
  cases t with
  | literal n =>
    obtain ⟨c', cs', hspelling, hhead⟩ := Numeral.IsLexeme.exists_head ht
    obtain ⟨rfl, -⟩ := List.cons.inj (hspelling.symm.trans h)
    rcases hc with rfl | rfl | rfl | rfl <;> revert hhead <;> decide
  | name text =>
    obtain ⟨c', cs', rfl, hstart, -⟩ := ht
    obtain ⟨rfl, -⟩ := List.cons.inj h
    rcases hc with rfl | rfl | rfl | rfl <;> revert hstart <;> decide
  | symbol s => cases s <;> cases h <;> revert hc <;> decide
  | stray c' => exact ht

end Token

/-- The text is cut into the tokens, each the longest at its place, and separators between
them. -/
inductive Cut : List Char → List (Token Numeral) → Prop where
  | nil : Cut [] []
  | separator {c : Char} {cs : List Char} {ts : List (Token Numeral)} (hc : isSeparator c = true)
      (h : Cut cs ts) : Cut (c :: cs) ts
  | token {t : Token Numeral} {rest : List Char} {ts : List (Token Numeral)}
      (ht : t.IsLongest rest) (h : Cut rest ts) : Cut (t.spelling ++ rest) (t :: ts)

def Lexed.items {α : Type} (l : Lexed α) : List (Token α) := l.tokens.map Located.item

section Lex

variable {done : List (Located (Token Numeral))} {p : Position} {c : Char} {cs : List Char}

theorem lexFrom_separator (hc : isSeparator c = true) :
    lexFrom done p (c :: cs) = lexFrom done (p.after c) cs := by
  rw [lexFrom, if_pos hc]

theorem lexFrom_scan (hc : isSeparator c = false) :
    lexFrom done p (c :: cs) = lexFrom (⟨p, (Token.scan c cs).1⟩ :: done)
      (p.afterAll (Token.scan c cs).1.spelling) (Token.scan c cs).2 := by
  rw [lexFrom, if_neg (by simp [hc])]

theorem Cut.items_lexFrom {ts : List (Token Numeral)} (h : Cut cs ts) :
    (lexFrom done p cs).items = done.reverse.map Located.item ++ ts := by
  induction h generalizing done p with
  | nil => simp [lexFrom, Lexed.items]
  | separator hc h ih => rw [lexFrom_separator hc, ih]
  | @token t rest ts ht h ih =>
    obtain ⟨c, cs, hspelling⟩ := List.exists_cons_of_ne_nil (Token.spelling_ne_nil ht.isLexeme)
    have hcs : t.spelling ++ rest = c :: (cs ++ rest) := by rw [hspelling, List.cons_append]
    rw [hcs, lexFrom_scan (ht.isLexeme.not_isSeparator hspelling), ht.scan_eq hcs, ih]
    simp

theorem Cut.isLexeme {ts : List (Token Numeral)} (h : Cut cs ts) : ∀ t ∈ ts, t.IsLexeme := by
  induction h with
  | nil => simp
  | separator hc h ih => exact ih
  | token ht h ih => exact List.forall_mem_cons.mpr ⟨ht.isLexeme, ih⟩

/-- Whatever is lexed is cut into its tokens, if no character starts none. -/
theorem exists_items_lexFrom (done : List (Located (Token Numeral))) (p : Position)
    (cs : List Char) :
    ∃ ts, (lexFrom done p cs).items = done.reverse.map Located.item ++ ts ∧
      (∀ t ∈ ts, t.IsLexeme ∨ ∃ c, t = .stray c) ∧ ((∀ t ∈ ts, t.IsLexeme) → Cut cs ts) := by
  fun_induction lexFrom done p cs with
  | case1 done p => exact ⟨[], by simp [Lexed.items], by simp, fun _ => .nil⟩
  | case2 done p c cs hc ih =>
    obtain ⟨ts, hitems, hall, hcut⟩ := ih
    exact ⟨ts, hitems, hall, fun h => .separator hc (hcut h)⟩
  | case3 done p c cs hc scanned ih =>
    obtain ⟨ts, hitems, hall, hcut⟩ := ih
    refine ⟨scanned.1 :: ts, by simpa using hitems, ?_, fun h => ?_⟩
    · exact List.forall_mem_cons.mpr ⟨Token.isLexeme_or_stray_scan c cs, hall⟩
    · obtain ⟨hfirst, hrest⟩ := List.forall_mem_cons.mp h
      rw [← Token.spelling_append_scan c cs]
      exact .token (Token.isLongest_scan hfirst) (hcut hrest)

end Lex

theorem isLexeme_or_stray_of_lex {text : String} {t : Token Numeral} (h : t ∈ (lex text).items) :
    t.IsLexeme ∨ ∃ c, t = .stray c := by
  obtain ⟨ts, hitems, hall, -⟩ := exists_items_lexFrom [] Position.start text.toList
  rw [lex, hitems] at h
  exact hall t h

/-- A text is cut into the tokens that lexing finds, if each of its characters belongs to one or
separates them. -/
theorem cut_iff {text : String} {ts : List (Token Numeral)} :
    Cut text.toList ts ↔ (lex text).items = ts ∧ ∀ t ∈ ts, t.IsLexeme := by
  constructor
  · intro h
    exact ⟨h.items_lexFrom, h.isLexeme⟩
  · rintro ⟨rfl, h⟩
    obtain ⟨ts, hitems, -, hcut⟩ := exists_items_lexFrom [] Position.start text.toList
    rw [lex, hitems] at h ⊢
    exact hcut h

end DecisionDiagrams
