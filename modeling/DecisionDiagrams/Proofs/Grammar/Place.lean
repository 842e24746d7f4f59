import DecisionDiagrams.Proofs.Grammar.Token

/-! Places within a text: what is cut off in front of them, and which tokens have begun there. -/
namespace DecisionDiagrams

/-- In front of `rest` a text is cut into the tokens, each the longest at its place, and separators
between them. -/
inductive CutBefore (rest : List Char) : List Char → List (Token Numeral) → Prop where
  | nil : CutBefore rest [] []
  | separator {c : Char} {cs : List Char} {ts : List (Token Numeral)} (hc : isSeparator c = true)
      (h : CutBefore rest cs ts) : CutBefore rest (c :: cs) ts
  | token {t : Token Numeral} {cs : List Char} {ts : List (Token Numeral)}
      (ht : t.IsLongest (cs ++ rest)) (h : CutBefore rest cs ts) :
      CutBefore rest (t.spelling ++ cs) (t :: ts)

/-- The longest token at a place is the longest one in any shorter text that holds it. -/
theorem Token.IsLongest.of_append {t : Token Numeral} {cs rest : List Char}
    (h : t.IsLongest (cs ++ rest)) : t.IsLongest cs where
  isLexeme := h.isLexeme
  longest {t' rest'} ht' heq := by
    have heq' : t'.spelling ++ (rest' ++ rest) = t.spelling ++ (cs ++ rest) := by
      rw [← List.append_assoc, heq, List.append_assoc]
    exact h.longest ht' heq'

theorem CutBefore.cut {rest cs : List Char} {ts : List (Token Numeral)} (h : CutBefore rest cs ts) :
    Cut cs ts := by
  induction h with
  | nil => exact .nil
  | separator hc h ih => exact .separator hc ih
  | token ht h ih => exact .token ht.of_append ih

theorem CutBefore.append_token {t : Token Numeral} {rest cs : List Char}
    {ts : List (Token Numeral)} (h : CutBefore (t.spelling ++ rest) cs ts) (ht : t.IsLongest rest) :
    CutBefore rest (cs ++ t.spelling) (ts ++ [t]) := by
  induction h with
  | nil =>
    have hone : CutBefore rest (t.spelling ++ []) [t] := .token ht .nil
    simpa using hone
  | separator hc h ih => exact .separator hc ih
  | token ht' h ih =>
    rw [List.append_assoc, List.cons_append]
    exact .token (by rwa [List.append_assoc]) ih

/-- Lexing finds the tokens that are cut off, and goes on behind them. -/
theorem CutBefore.lexFrom_eq {rest cs : List Char} {ts : List (Token Numeral)}
    (h : CutBefore rest cs ts) (done : List (Located (Token Numeral))) (p : Position) :
    ∃ done', lexFrom done p (cs ++ rest) = lexFrom done' (p.afterAll cs) rest ∧
      done'.reverse.map Located.item = done.reverse.map Located.item ++ ts := by
  induction h generalizing done p with
  | nil => exact ⟨done, rfl, by simp⟩
  | separator hc h ih =>
    rw [List.cons_append, lexFrom_separator hc]
    exact ih done _
  | @token t cs ts ht h ih =>
    obtain ⟨c, ds, hspelling⟩ := List.exists_cons_of_ne_nil (Token.spelling_ne_nil ht.isLexeme)
    have hcs : t.spelling ++ (cs ++ rest) = c :: (ds ++ (cs ++ rest)) := by
      rw [hspelling, List.cons_append]
    obtain ⟨done', hlex, hitems⟩ := ih (⟨p, t⟩ :: done) (p.afterAll t.spelling)
    rw [List.append_assoc, hcs, lexFrom_scan (ht.isLexeme.not_isSeparator hspelling),
      ht.scan_eq hcs, Position.afterAll_append]
    exact ⟨done', hlex, by simpa using hitems⟩

theorem CutBefore.prefix_of_cut {rest cs : List Char} {ts all : List (Token Numeral)}
    (h : CutBefore rest cs ts) (hall : Cut (cs ++ rest) all) : ts <+: all := by
  obtain ⟨done, hlex, hdone⟩ := h.lexFrom_eq [] Position.start
  obtain ⟨us, hrest, -⟩ := exists_items_lexFrom done (Position.start.afterAll cs) rest
  have hitems : (lexFrom [] Position.start (cs ++ rest)).items = _ := hall.items_lexFrom
  rw [hlex, hrest, hdone] at hitems
  exact ⟨us, by simpa using hitems⟩

/-- At the character of the text behind `before` the tokens have begun, the last of which may not
have ended. -/
inductive BegunAt : List Char → List Char → List (Token Numeral) → Prop where
  | separator {c : Char} {before rest : List Char} {ts : List (Token Numeral)}
      (hc : isSeparator c = true) (h : CutBefore (c :: rest) before ts) :
      BegunAt (before ++ c :: rest) before ts
  | token {t : Token Numeral} {c : Char} {before cs ds rest : List Char} {ts : List (Token Numeral)}
      (ht : t.IsLongest rest) (hspelling : t.spelling = cs ++ c :: ds)
      (h : CutBefore (t.spelling ++ rest) before ts) :
      BegunAt (before ++ (t.spelling ++ rest)) (before ++ cs) (ts ++ [t])

namespace BegunAt

variable {text before : List Char} {ts : List (Token Numeral)}

theorem exists_text (h : BegunAt text before ts) : ∃ c rest, text = before ++ c :: rest := by
  cases h with
  | separator hc h => exact ⟨_, _, rfl⟩
  | @token t c before cs ds rest ts ht hspelling h =>
    exact ⟨c, ds ++ rest, by simp [hspelling]⟩

theorem behind_separator {c : Char} (hc : isSeparator c = true) (h : BegunAt text before ts) :
    BegunAt (c :: text) (c :: before) ts := by
  cases h with
  | separator hc' h => exact .separator hc' (.separator hc h)
  | token ht hspelling h => exact .token ht hspelling (.separator hc h)

theorem behind_token {t : Token Numeral} (ht : t.IsLongest text) (h : BegunAt text before ts) :
    BegunAt (t.spelling ++ text) (t.spelling ++ before) (t :: ts) := by
  cases h with
  | separator hc' h =>
    rw [← List.append_assoc]
    exact .separator hc' (.token ht h)
  | token ht' hspelling h =>
    have hbegun := BegunAt.token ht' hspelling (.token ht h)
    rwa [List.append_assoc, List.append_assoc] at hbegun

theorem prefix_of_cut {all : List (Token Numeral)} (h : BegunAt text before ts)
    (hall : Cut text all) : ts <+: all := by
  cases h with
  | separator hc h => exact h.prefix_of_cut hall
  | token ht hspelling h =>
    rw [← List.append_assoc] at hall
    exact (h.append_token ht).prefix_of_cut hall

end BegunAt

/-- At each character of a text some of its tokens have begun. -/
theorem Cut.exists_begunAt {text : List Char} {all : List (Token Numeral)} (h : Cut text all)
    {before rest : List Char} {c : Char} (htext : text = before ++ c :: rest) :
    ∃ ts, BegunAt text before ts ∧ ts <+: all := by
  induction h generalizing before with
  | nil => exact absurd htext.symm (List.append_ne_nil_of_right_ne_nil _ (List.cons_ne_nil _ _))
  | separator hc h ih =>
    cases before with
    | nil => exact ⟨[], .separator hc .nil, List.nil_prefix⟩
    | cons c' before =>
      cases htext
      obtain ⟨ts, hbegun, hprefix⟩ := ih rfl
      exact ⟨ts, hbegun.behind_separator hc, hprefix⟩
  | @token t cs all ht h ih =>
    have hbehind (before' : List Char) (hcs : cs = before' ++ c :: rest) :
        ∃ ts, BegunAt (t.spelling ++ cs) (t.spelling ++ before') ts ∧ ts <+: t :: all := by
      obtain ⟨ts, hbegun, hprefix⟩ := ih hcs
      exact ⟨t :: ts, hbegun.behind_token ht, List.cons_prefix_cons.mpr ⟨rfl, hprefix⟩⟩
    rcases List.append_eq_append_iff.mp htext with ⟨before', rfl, hcs⟩ | ⟨ds, hspelling, hcs⟩
    · exact hbehind before' hcs
    · cases ds with
      | nil =>
        obtain rfl : before = t.spelling := by simpa using hspelling.symm
        simpa using hbehind [] hcs.symm
      | cons c' ds =>
        cases hcs
        exact ⟨[t], .token ht hspelling .nil, List.cons_prefix_cons.mpr ⟨rfl, List.nil_prefix⟩⟩

end DecisionDiagrams
