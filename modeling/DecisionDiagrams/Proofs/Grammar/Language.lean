import DecisionDiagrams.Grammar.Expression
import DecisionDiagrams.Proofs.Grammar.Nesting
import DecisionDiagrams.Proofs.Grammar.Reading
import DecisionDiagrams.Scalar.Float

/-! The language of expressions. A text is read exactly if it is a sentence that is not nested too
deep, and then its tree is that of its only derivation. -/
namespace DecisionDiagrams

variable {α β : Type}

def Token.map (f : α → β) : Token α → Token β
  | literal x => literal (f x)
  | name text => name text
  | symbol s => symbol s
  | stray c => stray c

structure Sentence (text : String) (d : Derivation Numeral 0) : Prop where
  cut : Cut text.toList d.tokens
  withinLimit : d.WithinLimit

namespace Derivation

theorem tokens_map (f : α → β) {p : Nat} (d : Derivation α p) :
    (d.map f).tokens = d.tokens.map (Token.map f) := by
  induction d with
  | literal x => rfl
  | name text => rfl
  | group inner ih => simp [map, tokens, Token.map, ih]
  | prefixed s op hs operand ih => simp [map, tokens, Token.map, ih]
  | infixed s op hs hp left right ihLeft ihRight => simp [map, tokens, Token.map, ihLeft, ihRight]
  | tighter hp inner ih => exact ih

theorem ne_stray_of_mem_tokens {p : Nat} (d : Derivation α p) {t : Token α} (h : t ∈ d.tokens)
    (c : Char) : t ≠ .stray c := by
  rintro rfl
  induction d with
  | literal x => cases h with | tail _ h => cases h
  | name text => cases h with | tail _ h => cases h
  | group inner ih => exact ih (by simpa [tokens] using h)
  | prefixed s op hs operand ih => exact ih (by simpa [tokens] using h)
  | infixed s op hs hp left right ihLeft ihRight =>
    have hsides : .stray c ∈ left.tokens ∨ .stray c ∈ right.tokens := by simpa [tokens] using h
    exact hsides.elim ihLeft ihRight
  | tighter hp inner ih => exact ih h

/-- A text is cut into the tokens that lexing finds, if they are those of a derivation. -/
theorem cut_iff_items_lex {p : Nat} (d : Derivation Numeral p) {text : String} :
    Cut text.toList d.tokens ↔ (lex text).items = d.tokens := by
  refine cut_iff.trans (and_iff_left_of_imp fun hitems t ht => ?_)
  have hlexed : t ∈ (lex text).items := hitems ▸ ht
  refine (isLexeme_or_stray_of_lex hlexed).resolve_right ?_
  rintro ⟨c, hc⟩
  exact d.ne_stray_of_mem_tokens ht c hc

end Derivation

/-- A text has at most one derivation. -/
theorem Derivation.eq_of_cut {text : String} {d d' : Derivation Numeral 0}
    (h : Cut text.toList d.tokens) (h' : Cut text.toList d'.tokens) : d = d' := by
  have hitems := d.cut_iff_items_lex.mp h
  have hitems' := d'.cut_iff_items_lex.mp h'
  exact Derivation.eq_of_tokens_eq (hitems.symm.trans hitems')

/-- The grammatical texts are the sentences that are not nested too deep. -/
theorem grammatical_eq_ok_iff {text : String} {l : Lexed Numeral} :
    grammatical text = .ok l ↔ l = lex text ∧ ∃ d, Sentence text d := by
  constructor
  · intro h
    unfold grammatical at h
    split at h
    next => cases h
    next hdeep =>
      cases htree : (lex text).tree with
      | error error => simp only [htree] at h; cases h
      | ok e =>
        simp only [htree] at h
        cases h
        obtain ⟨d, htokens, -⟩ := Lexed.tree_eq_ok_iff.mp htree
        have hcut := d.cut_iff_items_lex.mpr htokens.symm
        exact ⟨rfl, d, hcut, (d.withinLimit_iff hcut Position.start).mp hdeep⟩
  · rintro ⟨rfl, d, hcut, hlimit⟩
    have hdeep := (d.withinLimit_iff hcut Position.start).mpr hlimit
    have htree : (lex text).tree = .ok d.tree :=
      Lexed.tree_eq_ok_iff.mpr ⟨d, (d.cut_iff_items_lex.mp hcut).symm, rfl⟩
    simp only [grammatical, hdeep, htree]
    rfl

/-- A text is refused for its nesting where the scan for nesting stops. -/
theorem grammatical_eq_tooDeep_iff {text : String} {p : Position} :
    grammatical text = .error ⟨.tooDeep, some p⟩ ↔
      Nesting.start.tooDeepAt? Position.start text.toList = some p := by
  unfold grammatical
  split
  next q hdeep => simp [hdeep]
  next hnone =>
    cases htree : (lex text).tree with
    | error error =>
      obtain ⟨_, _, _, -, -, ⟨_, _, -, -, rfl⟩ | ⟨-, -, rfl⟩⟩ := Reading.of_run_eq_error htree
      · simp [bind, Except.bind, hnone, htree, SyntaxError.unexpected]
      · simp [bind, Except.bind, hnone, htree, SyntaxError.unexpected]
    | ok e => simp [bind, Except.bind, pure, Except.pure, hnone, htree]

def Lexed.map (f : α → β) (l : Lexed α) : Lexed β :=
  ⟨l.tokens.map fun t => ⟨t.position, t.item.map f⟩, l.finish⟩

theorem Lexed.items_map (f : α → β) (l : Lexed α) :
    (l.map f).items = l.items.map (Token.map f) := by
  simp [Lexed.items, Lexed.map]

/-- A text that is not nested too deep is read from its tokens. -/
theorem parse_eq_of_lex [Scalar α] {text : String} {l : Lexed Numeral}
    (hdepth : Nesting.start.tooDeepAt? Position.start text.toList = none) (hlex : lex text = l) :
    parse text = l.tree.bind fun _ =>
      (l.values (Scalar.ofNumeral? : Numeral → Option α)).bind Lexed.tree := by
  subst hlex
  simp only [parse, parseWith, grammatical, hdepth]
  cases (lex text).tree <;> rfl

section Values

variable {ofNumeral? : Numeral → Option α} {read : Numeral → α}

theorem Lexed.values_eq_ok {l : Lexed Numeral}
    (h : ∀ n, .literal n ∈ l.items → ofNumeral? n = some (read n)) :
    l.values ofNumeral? = .ok (l.map read) := by
  obtain ⟨tokens, finish⟩ := l
  have hmap : tokens.mapM (Token.value ofNumeral?) =
      .ok (tokens.map fun t => ⟨t.position, t.item.map read⟩) := by
    induction tokens with
    | nil => rfl
    | cons t tokens ih =>
      have hvalue : Token.value ofNumeral? t = .ok ⟨t.position, t.item.map read⟩ := by
        obtain ⟨position, item⟩ := t
        cases item with
        | literal n => simp [Token.value, h n List.mem_cons_self, Token.map]
        | name text => rfl
        | symbol s => rfl
        | stray c => rfl
      rw [List.mapM_cons, hvalue, ih fun n hn => h n (List.mem_cons_of_mem _ hn)]
      rfl
  rw [Lexed.values, hmap]
  rfl

theorem Token.exists_value_of_mapM_eq_ok {tokens : List (Located (Token Numeral))}
    {tokens' : List (Located (Token α))} (h : tokens.mapM (Token.value ofNumeral?) = .ok tokens')
    {t : Located (Token Numeral)} (ht : t ∈ tokens) :
    ∃ t', Token.value ofNumeral? t = .ok t' := by
  induction tokens generalizing tokens' with
  | nil => cases ht
  | cons first tokens ih =>
    rw [List.mapM_cons] at h
    cases hfirst : Token.value ofNumeral? first with
    | error error =>
      rw [hfirst] at h
      cases h
    | ok first' =>
      cases hrest : tokens.mapM (Token.value ofNumeral?) with
      | error error =>
        rw [hfirst, hrest] at h
        cases h
      | ok rest =>
        rcases List.mem_cons.mp ht with rfl | ht
        · exact ⟨first', hfirst⟩
        · exact ih hrest ht

/-- Tokens that get their values have no literal that is refused. -/
theorem Lexed.isSome_of_values_eq_ok {l : Lexed Numeral} {l' : Lexed α}
    (h : l.values ofNumeral? = .ok l') {n : Numeral} (hn : .literal n ∈ l.items) :
    (ofNumeral? n).isSome := by
  obtain ⟨t, ht, hitem⟩ := List.mem_map.mp hn
  unfold values at h
  cases htokens : l.tokens.mapM (Token.value ofNumeral?) with
  | error error =>
    rw [htokens] at h
    cases h
  | ok tokens =>
    obtain ⟨t', ht'⟩ := Token.exists_value_of_mapM_eq_ok htokens ht
    cases hvalue : ofNumeral? n with
    | some x => rfl
    | none =>
      simp only [Token.value, hitem, hvalue] at ht'
      cases ht'

section Read

variable {text : String}

theorem parseWith_eq (hread : ∀ n, .literal n ∈ (lex text).items → ofNumeral? n = some (read n)) :
    parseWith ofNumeral? text = (grammatical text).bind fun l => (l.map read).tree := by
  unfold parseWith
  cases hl : grammatical text with
  | error error => rfl
  | ok l =>
    obtain ⟨rfl, -⟩ := grammatical_eq_ok_iff.mp hl
    show ((lex text).values ofNumeral?).bind Lexed.tree = _
    rw [Lexed.values_eq_ok hread]
    rfl

theorem parseWith_eq_ok_iff_of_read
    (hread : ∀ n, .literal n ∈ (lex text).items → ofNumeral? n = some (read n)) {e : Expr α} :
    parseWith ofNumeral? text = .ok e ↔ ∃ d, Sentence text d ∧ (d.map read).tree = e := by
  rw [parseWith_eq hread]
  constructor
  · intro h
    cases hl : grammatical text with
    | error error => rw [hl] at h; cases h
    | ok l =>
      rw [hl] at h
      obtain ⟨rfl, d, hd⟩ := grammatical_eq_ok_iff.mp hl
      obtain ⟨d', htokens, htree⟩ := Lexed.tree_eq_ok_iff.mp h
      rw [Lexed.items_map, d.cut_iff_items_lex.mp hd.cut, ← d.tokens_map] at htokens
      obtain rfl := Derivation.eq_of_tokens_eq htokens
      exact ⟨d, hd, htree⟩
  · rintro ⟨d, hd, rfl⟩
    rw [grammatical_eq_ok_iff.mpr ⟨rfl, d, hd⟩]
    refine Lexed.tree_eq_ok_iff.mpr ⟨d.map read, ?_, rfl⟩
    rw [d.tokens_map, Lexed.items_map, d.cut_iff_items_lex.mp hd.cut]

theorem parseWith_eq_ok_iff (hread : ∀ n : Numeral, n.IsLexeme → ofNumeral? n = some (read n))
    {e : Expr α} :
    parseWith ofNumeral? text = .ok e ↔ ∃ d, Sentence text d ∧ (d.map read).tree = e := by
  apply parseWith_eq_ok_iff_of_read
  intro n hn
  apply hread n
  refine (isLexeme_or_stray_of_lex hn).resolve_right ?_
  rintro ⟨c, hc⟩
  cases hc

end Read

end Values

theorem Reading.position_of_run_eq_error {finish : Position} {r : Reading α}
    {tokens : List (Located (Token α))} {error : SyntaxError}
    (h : r.run finish tokens = .error error) : ∃ p, error.position = some p := by
  obtain ⟨_, _, _, -, -, ⟨t, _, -, -, rfl⟩ | ⟨-, -, rfl⟩⟩ := of_run_eq_error h
  · exact ⟨t.position, rfl⟩
  · exact ⟨finish, rfl⟩

section Refused

variable {ofNumeral? : Numeral → Option α} {error : SyntaxError}

theorem Token.of_value_eq_error {t : Located (Token Numeral)}
    (h : value ofNumeral? t = .error error) :
    ∃ n, t.item = .literal n ∧ ofNumeral? n = none ∧
      error = ⟨.refusedLiteral n, some t.position⟩ := by
  unfold value at h
  split at h
  next n hitem =>
    split at h
    next => cases h
    next hnone => cases h; exact ⟨n, hitem, hnone, rfl⟩
  all_goals cases h

theorem Token.of_mapM_value_eq_error {tokens : List (Located (Token Numeral))}
    (h : tokens.mapM (value ofNumeral?) = .error error) :
    ∃ t ∈ tokens, value ofNumeral? t = .error error := by
  induction tokens with
  | nil => cases h
  | cons t tokens ih =>
    rw [List.mapM_cons] at h
    cases hfirst : value ofNumeral? t with
    | error first =>
      rw [hfirst] at h
      cases h
      exact ⟨t, List.mem_cons_self, hfirst⟩
    | ok t' =>
      cases hrest : tokens.mapM (value ofNumeral?) with
      | error rest =>
        rw [hfirst, hrest] at h
        cases h
        obtain ⟨t'', ht'', hvalue⟩ := ih hrest
        exact ⟨t'', List.mem_cons_of_mem t ht'', hvalue⟩
      | ok tokens' =>
        rw [hfirst, hrest] at h
        cases h

/-- Values are missing only for literals that are refused. -/
theorem Lexed.of_values_eq_error {l : Lexed Numeral} (h : l.values ofNumeral? = .error error) :
    ∃ n p, .literal n ∈ l.items ∧ ofNumeral? n = none ∧ error = ⟨.refusedLiteral n, some p⟩ := by
  unfold values at h
  cases htokens : l.tokens.mapM (Token.value ofNumeral?) with
  | error error' =>
    rw [htokens] at h
    cases h
    obtain ⟨t, ht, hvalue⟩ := Token.of_mapM_value_eq_error htokens
    obtain ⟨n, hitem, hnone, rfl⟩ := Token.of_value_eq_error hvalue
    exact ⟨n, t.position, List.mem_map.mpr ⟨t, ht, hitem⟩, hnone, rfl⟩
  | ok tokens =>
    rw [htokens] at h
    cases h

end Refused

theorem position_of_grammatical_eq_error {text : String} {error : SyntaxError}
    (h : grammatical text = .error error) : ∃ p, error.position = some p := by
  unfold grammatical at h
  split at h
  next p _ => cases h; exact ⟨p, rfl⟩
  next =>
    cases htree : (lex text).tree with
    | error error' =>
      simp only [htree] at h
      cases h
      exact Reading.position_of_run_eq_error htree
    | ok e =>
      simp only [htree] at h
      cases h

/-- A text is refused at a place in it. -/
theorem position_of_parseWith_eq_error {ofNumeral? : Numeral → Option α} {text : String}
    {error : SyntaxError} (h : parseWith ofNumeral? text = .error error) :
    ∃ p, error.position = some p := by
  unfold parseWith at h
  cases hl : grammatical text with
  | error error' =>
    rw [hl] at h
    cases h
    exact position_of_grammatical_eq_error hl
  | ok l =>
    rw [hl] at h
    cases hvalues : l.values ofNumeral? with
    | error error' =>
      simp only [bind, Except.bind, hvalues] at h
      cases h
      obtain ⟨n, p, -, -, rfl⟩ := Lexed.of_values_eq_error hvalues
      exact ⟨p, rfl⟩
    | ok l' =>
      simp only [bind, Except.bind, hvalues] at h
      exact Reading.position_of_run_eq_error h

end DecisionDiagrams
