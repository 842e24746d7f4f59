import DecisionDiagrams.Proofs.Grammar.Fault
import DecisionDiagrams.Proofs.Text.Position
import DecisionDiagrams.Scalar.Strict

/-! Sentences in which literals are refused. Of several the leftmost one is reported, also where
errors take the place of operands while the tree is put together. -/
namespace DecisionDiagrams

variable {α β : Type}

theorem Lexed.mem_items_iff {l : Lexed α} {x : α} :
    .literal x ∈ l.items ↔ ∃ p, .literal ⟨p, x⟩ ∈ l.placed := by
  rw [← map_item_placed, List.mem_map]
  constructor
  · rintro ⟨t, ht, hmap⟩
    cases t with
    | literal y => cases hmap; exact ⟨y.position, ht⟩
    | _ => cases hmap
  · rintro ⟨p, hp⟩
    exact ⟨_, hp, rfl⟩

/-- A derivation does not depend on its literals. -/
theorem Derivation.exists_map_eq (f : α → β) {p : Nat} (d : Derivation β p) {ts : List (Token α)}
    (h : ts.map (Token.map f) = d.tokens) :
    ∃ d' : Derivation α p, d'.tokens = ts ∧ d'.map f = d := by
  have htoken {t : Token α} {s : Symbol} (ht : t.map f = .symbol s) : t = .symbol s := by
    cases t <;> cases ht
    rfl
  induction d generalizing ts with
  | literal x =>
    obtain ⟨t, rfl, ht⟩ := List.map_eq_singleton_iff.mp h
    cases t with
    | literal y => cases ht; exact ⟨.literal y, rfl, rfl⟩
    | _ => cases ht
  | name text =>
    obtain ⟨t, rfl, ht⟩ := List.map_eq_singleton_iff.mp h
    cases t with
    | name text' => cases ht; exact ⟨.name text, rfl, rfl⟩
    | _ => cases ht
  | group inner ih =>
    obtain ⟨t, ts, rfl, ht, hts⟩ := List.map_eq_cons_iff.mp h
    obtain ⟨ts, us, rfl, hinner, hus⟩ := List.map_eq_append_iff.mp hts
    obtain ⟨u, rfl, hu⟩ := List.map_eq_singleton_iff.mp hus
    obtain ⟨inner', rfl, rfl⟩ := ih hinner
    exact ⟨.group inner', by rw [htoken ht, htoken hu]; rfl, rfl⟩
  | prefixed s op hs operand ih =>
    obtain ⟨t, ts, rfl, ht, hts⟩ := List.map_eq_cons_iff.mp h
    obtain ⟨operand', rfl, rfl⟩ := ih hts
    exact ⟨.prefixed s op hs operand', by rw [htoken ht]; rfl, rfl⟩
  | infixed s op hs hp left right ihLeft ihRight =>
    obtain ⟨ts, us, rfl, hleft, hus⟩ := List.map_eq_append_iff.mp h
    obtain ⟨u, us, rfl, hu, hright⟩ := List.map_eq_cons_iff.mp hus
    obtain ⟨left', rfl, rfl⟩ := ihLeft hleft
    obtain ⟨right', rfl, rfl⟩ := ihRight hright
    exact ⟨.infixed s op hs hp left' right', by rw [htoken hu]; rfl, rfl⟩
  | tighter hp inner ih =>
    obtain ⟨inner', rfl, rfl⟩ := ih h
    exact ⟨.tighter hp inner', rfl, rfl⟩

section Refused

variable (ofNumeral? : Numeral → Option α)

theorem exists_read [Scalar α] :
    ∃ read : Numeral → α, ∀ n x, ofNumeral? n = some x → read n = x :=
  ⟨fun n => (ofNumeral? n).getD Scalar.zero, fun n x hx => by simp only [hx, Option.getD_some]⟩

def refusal (n : Located Numeral) : SyntaxError := ⟨.refusedLiteral n.item, some n.position⟩

def Token.refused? : Token (Located Numeral) → Option (Located Numeral)
  | .literal n => if (ofNumeral? n.item).isSome then none else some n
  | _ => none

/-- The first literal among the tokens that has no value. -/
def firstRefused? (ts : List (Token (Located Numeral))) : Option (Located Numeral) :=
  ts.findSome? (Token.refused? ofNumeral?)

section First

variable {ofNumeral?} (s : Symbol) (ts us : List (Token (Located Numeral)))

@[simp] theorem firstRefused?_nil : firstRefused? ofNumeral? [] = none := rfl

@[simp] theorem firstRefused?_symbol :
    firstRefused? ofNumeral? (.symbol s :: ts) = firstRefused? ofNumeral? ts := rfl

@[simp] theorem firstRefused?_append : firstRefused? ofNumeral? (ts ++ us) =
    (firstRefused? ofNumeral? ts).or (firstRefused? ofNumeral? us) := List.findSome?_append

end First

/-- Trees are put together from literals with their values. An error takes the place of a tree, and
of two errors the left one is kept. -/
def reader : Builder (Located Numeral) (Except SyntaxError (Expr α)) where
  literal n :=
    match ofNumeral? n.item with
    | some x => .ok (.literal x)
    | none => .error (refusal n)
  name text := .ok (.variable (String.ofList text))
  prefixed op x := do return .apply op [← x]
  infixed x op y := do return .apply op [← x, ← y]

variable {ofNumeral?} {read : Numeral → α}

theorem firstRefused?_eq_none_iff {ts : List (Token (Located Numeral))} :
    firstRefused? ofNumeral? ts = none ↔ ∀ n, .literal n ∈ ts → (ofNumeral? n.item).isSome := by
  rw [firstRefused?, List.findSome?_eq_none_iff]
  constructor
  · intro h n hn
    simpa [Token.refused?, Option.isSome_iff_ne_none] using h _ hn
  · intro h t ht
    cases t with
    | literal n => exact if_pos (h n ht)
    | _ => rfl

namespace Token

variable {t : Located (Token Numeral)}

theorem refused?_eq_some_iff {n : Located Numeral} :
    refused? ofNumeral? (place t) = some n ↔
      t = ⟨n.position, .literal n.item⟩ ∧ ofNumeral? n.item = none := by
  obtain ⟨p, item⟩ := t
  cases item with
  | literal m =>
    rw [place, map, refused?, Option.ite_none_left_eq_some, Option.not_isSome_iff_eq_none]
    constructor
    · rintro ⟨hm, ⟨⟩⟩
      exact ⟨rfl, hm⟩
    · rintro ⟨⟨⟩, hm⟩
      exact ⟨hm, rfl⟩
  | _ => simp [place, map, refused?]

theorem refused?_eq_none_iff :
    refused? ofNumeral? (place t) = none ↔
      ∀ n, t.item = .literal n → (ofNumeral? n).isSome := by
  obtain ⟨p, item⟩ := t
  cases item with
  | literal m => simp [place, map, refused?, Option.isSome_iff_ne_none]
  | _ => simp [place, map, refused?]

theorem value_eq_error {n : Located Numeral} (h : refused? ofNumeral? (place t) = some n) :
    value ofNumeral? t = .error (refusal n) := by
  obtain ⟨rfl, hn⟩ := refused?_eq_some_iff.mp h
  simp only [value, hn]
  rfl

theorem exists_value (h : refused? ofNumeral? (place t) = none) :
    ∃ t', value ofNumeral? t = .ok t' := by
  cases hvalue : value ofNumeral? t with
  | ok t' => exact ⟨t', rfl⟩
  | error error =>
    obtain ⟨n, hitem, hn, -⟩ := of_value_eq_error hvalue
    have hsome := refused?_eq_none_iff.mp h n hitem
    rw [hn] at hsome
    cases hsome

end Token

/-- Values are given from left to right, up to the first literal that is refused. -/
theorem Lexed.values_eq_error {l : Lexed Numeral} {n : Located Numeral}
    (h : firstRefused? ofNumeral? l.placed = some n) :
    l.values ofNumeral? = .error (refusal n) := by
  obtain ⟨tokens, finish⟩ := l
  have hmap : tokens.mapM (Token.value ofNumeral?) = .error (refusal n) := by
    induction tokens with
    | nil => cases h
    | cons t tokens ih =>
      rw [firstRefused?, placed, List.map_cons, List.findSome?_cons] at h
      rw [List.mapM_cons]
      split at h
      next m hm =>
        cases h
        rw [Token.value_eq_error hm]
        rfl
      next hnone =>
        obtain ⟨t', ht'⟩ := Token.exists_value hnone
        rw [ht', ih h]
        rfl
  rw [values, hmap]
  rfl

/-- What is put together from a phrase is its tree, unless one of its literals is refused. -/
theorem Derivation.fold_reader (hread : ∀ n x, ofNumeral? n = some x → read n = x) {p : Nat}
    (d : Derivation (Located Numeral) p) :
    d.fold (reader ofNumeral?) =
      match firstRefused? ofNumeral? d.tokens with
      | some n => .error (refusal n)
      | none => .ok ((d.map Located.item).map read).tree := by
  induction d with
  | literal n =>
    simp only [fold, reader, firstRefused?, tokens, List.findSome?_cons, Token.refused?]
    cases hn : ofNumeral? n.item with
    | some x => simp [map, tree, hread _ _ hn]
    | none => rfl
  | name text => rfl
  | group inner ih =>
    rw [tokens, firstRefused?_symbol, firstRefused?_append, firstRefused?_symbol,
      firstRefused?_nil, Option.or_none]
    exact ih
  | prefixed s op hs operand ih =>
    rw [tokens, firstRefused?_symbol, fold, ih]
    cases firstRefused? ofNumeral? operand.tokens with
    | some n => rfl
    | none => rfl
  | infixed s op hs hp left right ihLeft ihRight =>
    rw [tokens, firstRefused?_append, firstRefused?_symbol, fold, ihLeft, ihRight]
    cases firstRefused? ofNumeral? left.tokens with
    | some n => rfl
    | none =>
      cases firstRefused? ofNumeral? right.tokens with
      | some n => rfl
      | none => rfl
  | tighter hp inner ih => exact ih

section Sentence

variable {text : String} {d : Derivation Numeral 0}

/-- A sentence is read as its tree, unless one of its literals is refused. -/
theorem Sentence.parseWith_eq (hd : Sentence text d)
    (hread : ∀ n x, ofNumeral? n = some x → read n = x) :
    parseWith ofNumeral? text =
      match firstRefused? ofNumeral? (lex text).placed with
      | some n => .error (refusal n)
      | none => .ok (d.map read).tree := by
  cases hfirst : firstRefused? ofNumeral? (lex text).placed with
  | some n =>
    rw [parseWith, grammatical_eq_ok_iff.mpr ⟨rfl, d, hd⟩]
    simp only [bind, Except.bind, Lexed.values_eq_error hfirst]
  | none =>
    refine (parseWith_eq_ok_iff_of_read fun n hn => ?_).mpr ⟨d, hd, rfl⟩
    obtain ⟨p, hp⟩ := Lexed.mem_items_iff.mp hn
    obtain ⟨x, hx⟩ := Option.isSome_iff_exists.mp (firstRefused?_eq_none_iff.mp hfirst _ hp)
    rw [hx, hread n x hx]

theorem Sentence.parseWith_eq_error_iff (hd : Sentence text d)
    (hread : ∀ n x, ofNumeral? n = some x → read n = x) {error : SyntaxError} :
    parseWith ofNumeral? text = .error error ↔
      ∃ n, firstRefused? ofNumeral? (lex text).placed = some n ∧ error = refusal n := by
  rw [hd.parseWith_eq hread]
  cases firstRefused? ofNumeral? (lex text).placed with
  | some n => simp [eq_comm]
  | none => simp

/-- The derivation of a sentence, with the place of each literal. -/
theorem Sentence.exists_placed (hd : Sentence text d) :
    ∃ d' : Derivation (Located Numeral) 0,
      d'.tokens = (lex text).placed ∧ d'.map Located.item = d := by
  apply d.exists_map_eq
  rw [Lexed.map_item_placed, d.cut_iff_items_lex.mp hd.cut]

/-- Climbing with errors in place of operands ends as reading ends. -/
theorem Sentence.value_row_eq (hd : Sentence text d)
    (hread : ∀ n x, ofNumeral? n = some x → read n = x) {row : Row (Operand (Located Numeral))}
    (hrow : row.tokens = (lex text).placed) :
    row.value (reader ofNumeral?) = parseWith ofNumeral? text := by
  obtain ⟨d', htokens, rfl⟩ := hd.exists_placed
  rw [Row.value_eq_fold _ (hrow.trans htokens.symm), d'.fold_reader hread, htokens,
    hd.parseWith_eq hread]

end Sentence

/-- The literal that is found is refused, and none in front of it is. -/
theorem Lexed.firstRefused?_placed_iff {l : Lexed Numeral} {p : Position} {n : Numeral} :
    firstRefused? ofNumeral? l.placed = some ⟨p, n⟩ ↔ ofNumeral? n = none ∧
      ∃ first later, l.tokens = first ++ ⟨p, .literal n⟩ :: later ∧
        ∀ m, .literal m ∈ first.map Located.item → (ofNumeral? m).isSome := by
  rw [firstRefused?, placed, List.findSome?_map, List.findSome?_eq_some_iff]
  simp only [Function.comp_apply, Token.refused?_eq_some_iff, Token.refused?_eq_none_iff]
  constructor
  · rintro ⟨first, _, later, htokens, ⟨rfl, hn⟩, hfirst⟩
    refine ⟨hn, first, later, htokens, fun m hm => ?_⟩
    obtain ⟨t, ht, hitem⟩ := List.mem_map.mp hm
    exact hfirst t ht m hitem
  · rintro ⟨hn, first, later, htokens, hfirst⟩
    refine ⟨first, _, later, htokens, ⟨rfl, hn⟩, fun t ht m hm => ?_⟩
    exact hfirst m (List.mem_map.mpr ⟨t, ht, hm⟩)

end Refused

/-- In the text the token stands behind `before`, in which the tokens `ts` stand. -/
def Token.StandsIn (t : Token Numeral) (text before : List Char) (ts : List (Token Numeral)) :
    Prop :=
  ∃ rest, text = before ++ (t.spelling ++ rest) ∧ t.IsLongest rest ∧
    CutBefore (t.spelling ++ rest) before ts

/-- Lexing finds a token, and its place, where it stands in the text. -/
theorem Token.standsIn_iff {t : Token Numeral} {p q : Position} {text : List Char}
    {ts : List (Token Numeral)} (hall : ∀ u ∈ (lexFrom [] p text).items, u.IsLexeme) :
    (∃ first later, (lexFrom [] p text).tokens = first ++ ⟨q, t⟩ :: later ∧
        first.map Located.item = ts) ↔
      ∃ before, t.StandsIn text before ts ∧ q = p.afterAll before := by
  constructor
  · rintro ⟨first, later, htokens, rfl⟩
    have hlexeme : ∀ u ∈ first ++ ⟨q, t⟩ :: later, u.item.IsLexeme := fun u hu =>
      hall u.item (List.mem_map_of_mem (htokens ▸ hu))
    have hlex : (lexFrom [] p text).tokens = [].reverse ++ (first ++ ⟨q, t⟩ :: later) := htokens
    obtain ⟨before, rest, rfl, hcut, hfollows⟩ :=
      exists_cutBefore hlex fun u hu => hlexeme u (List.mem_append_left _ hu)
    obtain ⟨hq, c, cs, rfl, -, ht⟩ := hfollows.token _ _ rfl
    have hspelling := spelling_append_scan c cs
    have hlongest := isLongest_scan (ht ▸ hlexeme ⟨q, t⟩ (by simp))
    rw [← ht] at hspelling hlongest
    exact ⟨before, ⟨_, by rw [hspelling], hlongest, by rwa [hspelling]⟩, hq⟩
  · rintro ⟨before, ⟨rest, rfl, ht, hcut⟩, rfl⟩
    obtain ⟨done, hlex, hdone⟩ := hcut.lexFrom_eq [] p
    obtain ⟨c, cs, hspelling⟩ := List.exists_cons_of_ne_nil (spelling_ne_nil ht.isLexeme)
    have hcs : t.spelling ++ rest = c :: (cs ++ rest) := by rw [hspelling, List.cons_append]
    have hscan : lexFrom done (p.afterAll before) (c :: (cs ++ rest)) = _ :=
      lexFrom_scan (ht.isLexeme.not_isSeparator hspelling)
    rw [← hcs, ht.scan_eq hcs] at hscan
    obtain ⟨later, hlater⟩ := exists_tokens_lexFrom (⟨p.afterAll before, t⟩ :: done)
      ((p.afterAll before).afterAll t.spelling) rest
    refine ⟨done.reverse, later, ?_, by simpa using hdone⟩
    rw [hlex, hscan, hlater, List.reverse_cons, List.append_assoc]
    rfl

/-- In the text the literal `n` stands behind `before`. It is refused, and no literal in front of it
is. -/
structure RefusedFirst (ofNumeral? : Numeral → Option α) (text : String) (before : List Char)
    (n : Numeral) : Prop where
  refused : ofNumeral? n = none
  first : ∃ ts, (Token.literal n).StandsIn text.toList before ts ∧
    ∀ m, .literal m ∈ ts → (ofNumeral? m).isSome

theorem Sentence.firstRefused?_iff {ofNumeral? : Numeral → Option α} {text : String}
    {d : Derivation Numeral 0} (hd : Sentence text d) {p : Position} {n : Numeral} :
    firstRefused? ofNumeral? (lex text).placed = some ⟨p, n⟩ ↔
      ∃ before, RefusedFirst ofNumeral? text before n ∧ p = Position.start.afterAll before := by
  have hall : ∀ u ∈ (lex text).items, u.IsLexeme :=
    d.cut_iff_items_lex.mp hd.cut ▸ hd.cut.isLexeme
  rw [Lexed.firstRefused?_placed_iff]
  constructor
  · rintro ⟨hn, first, later, htokens, hfirst⟩
    obtain ⟨before, hstands, hp⟩ := (Token.standsIn_iff hall).mp ⟨first, later, htokens, rfl⟩
    exact ⟨before, ⟨hn, _, hstands, hfirst⟩, hp⟩
  · rintro ⟨before, ⟨hn, ts, hstands, hts⟩, hp⟩
    obtain ⟨first, later, htokens, rfl⟩ := (Token.standsIn_iff hall).mpr ⟨before, hstands, hp⟩
    exact ⟨hn, first, later, htokens, hts⟩

/-- A sentence is read exactly if none of its literals is refused. Otherwise the error names the
leftmost one that is, as it is written, and its place. Climbing with errors in place of operands
ends in the same way. -/
theorem refused_literal_leftmost [Scalar α] {text : String} {d : Derivation Numeral 0}
    (hd : Sentence text d) :
    ((∃ e : Expr α, parse text = .ok e) ↔
      ∀ n, .literal n ∈ d.tokens → (Scalar.ofNumeral? n : Option α).isSome) ∧
    (∀ error, (parse text : Except SyntaxError (Expr α)) = .error error ↔ ∃ before n,
      RefusedFirst (Scalar.ofNumeral? : Numeral → Option α) text before n ∧
        error.fault = .refusedLiteral n ∧
        error.fault.message = "unexpected literal: " ++ String.ofList n.spelling ∧
        error.position =
          some ⟨before.count '\n' + 1, (before.rtakeWhile (· ≠ '\n')).length + 1⟩) ∧
    (∃ s pairs row, Recognises text (.matched s pairs) ∧ Pair.exprRow? pairs = some row ∧
      row.tokens = (lex text).placed) ∧
    ∀ row : Row (Operand (Located Numeral)), row.tokens = (lex text).placed →
      row.value (reader Scalar.ofNumeral?) = (parse text : Except SyntaxError (Expr α)) := by
  obtain ⟨read, hread⟩ := exists_read (Scalar.ofNumeral? : Numeral → Option α)
  refine ⟨⟨?_, hd.exists_parse⟩, fun error => ?_, ?_, fun row => hd.value_row_eq hread⟩
  · rintro ⟨e, he⟩ n hn
    obtain ⟨d', read', hd', hread', -⟩ := parse_eq_ok_iff.mp he
    obtain rfl := Derivation.eq_of_cut hd.cut hd'.cut
    exact Option.isSome_of_eq_some (hread' n hn)
  · rw [parse, hd.parseWith_eq_error_iff hread]
    constructor
    · rintro ⟨⟨p, n⟩, hfirst, rfl⟩
      obtain ⟨before, hrefused, rfl⟩ := hd.firstRefused?_iff.mp hfirst
      exact ⟨before, n, hrefused, rfl, rfl, congrArg some (Position.afterAll_start before)⟩
    · rintro ⟨before, n, hrefused, hfault, -, hposition⟩
      refine ⟨⟨_, n⟩, hd.firstRefused?_iff.mpr ⟨before, hrefused, rfl⟩, ?_⟩
      rw [← Position.afterAll_start] at hposition
      cases error
      cases hfault
      cases hposition
      rfl
  · obtain ⟨s, p, w, inner, q, row, hmatched, hinner, hrow⟩ := exists_row_of_cut hd.cut
    exact ⟨s, _, row, hmatched, hinner, hrow⟩

/-- The product is put together before the sum, but its literal stands behind the first one. -/
theorem refused_literal_leftmost_in_sum :
    let text := "-(\r\n 1e999 + 2e999 * 3)"
    let n : Numeral := ⟨['1'], none, some ⟨'e', none, ['9', '9', '9']⟩⟩
    ∃ d before, Sentence text d ∧
      RefusedFirst (Scalar.ofNumeral? : Numeral → Option StrictFloat) text before n ∧
      (parse text : Except SyntaxError (Expr StrictFloat)) =
        .error ⟨.refusedLiteral n, some ⟨2, 2⟩⟩ ∧
      ∃ s pairs row, Recognises text (.matched s pairs) ∧ Pair.exprRow? pairs = some row ∧
        row.value (reader (Scalar.ofNumeral? : Numeral → Option StrictFloat)) =
          .error ⟨.refusedLiteral n, some ⟨2, 2⟩⟩ := by
  intro text n
  let product : Derivation Numeral 3 := .infixed .star .multiply rfl rfl
    (.tighter (by decide) (.literal ⟨['2'], none, some ⟨'e', none, ['9', '9', '9']⟩⟩))
    (.literal ⟨['3'], none, none⟩)
  let sum : Derivation Numeral 2 := .infixed .plus .add rfl rfl
    (.tighter (by decide) (.tighter (by decide) (.literal n))) product
  let negated : Derivation Numeral 4 := .prefixed .minus .negate rfl
    (.group (.tighter (by decide) (.tighter (by decide) sum)))
  let d : Derivation Numeral 0 := .tighter (by decide) (.tighter (by decide) (.tighter (by decide)
    (.tighter (by decide) negated)))
  have hcut : Cut text.toList d.tokens := d.cut_iff_items_lex.mpr (by decide +kernel)
  have hlimit : d.WithinLimit := by
    simp [d, negated, sum, product, Derivation.WithinLimit, Derivation.depths, maxNesting]
  have hd : Sentence text d := ⟨hcut, hlimit⟩
  have hfirst : firstRefused? (Scalar.ofNumeral? : Numeral → Option StrictFloat)
      (lex text).placed = some ⟨⟨2, 2⟩, n⟩ := by decide +kernel
  obtain ⟨before, hrefused, hplace⟩ := hd.firstRefused?_iff.mp hfirst
  obtain ⟨-, herror, ⟨s, pairs, row, hmatched, hpairs, hrow⟩, hclimb⟩ :=
    refused_literal_leftmost (α := StrictFloat) hd
  have hparse := (herror ⟨.refusedLiteral n, some ⟨2, 2⟩⟩).mpr
    ⟨before, n, hrefused, rfl, rfl, by rw [hplace, Position.afterAll_start]⟩
  exact ⟨d, before, hd, hrefused, hparse, s, pairs, row, hmatched, hpairs,
    (hclimb row hrow).trans hparse⟩

end DecisionDiagrams
