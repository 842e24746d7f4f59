import DecisionDiagrams.Proofs.Expr.Meaning
import DecisionDiagrams.Proofs.Grammar.Enclosure
import DecisionDiagrams.Scalar.Strict

/-! The names in a text, collected from its tokens and from its tree. -/
namespace DecisionDiagrams

variable {α : Type}

/-- The names among the tokens of a phrase are those that occur in its tree. -/
theorem Derivation.mem_names_iff {p : Nat} (d : Derivation Numeral p) (read : Numeral → α)
    {name : String} :
    name ∈ d.tokens.filterMap Token.name? ↔ (d.map read).tree.Mentions name := by
  induction d with
  | literal n => simp [tokens, Token.name?, map, tree]
  | name text => simp [tokens, Token.name?, map, tree, eq_comm]
  | group inner ih => simpa [tokens, Token.name?, map, tree] using ih
  | prefixed s op hs operand ih =>
    simpa [tokens, Token.name?, map, tree, Expr.mentions_apply] using ih
  | infixed s op hs hp left right ihLeft ihRight =>
    rw [tokens, List.filterMap_append, List.mem_append, ihLeft]
    simp [List.filterMap_cons, Token.name?, map, tree, Expr.mentions_apply, ihRight]
  | tighter hp inner ih => exact ih

section Collect

variable {text : String} {error : SyntaxError}

/-- Names are collected from exactly the sentences that are not nested too deep. -/
theorem parseNames_eq_ok_iff {names : Std.TreeSet String} :
    parseNames text = .ok names ↔
      ∃ d, Sentence text d ∧ .ofList (d.tokens.filterMap Token.name?) = names := by
  have hnames {d : Derivation Numeral 0} (hd : Sentence text d) :
      (lex text).tokens.filterMap (fun t => t.item.name?) = d.tokens.filterMap Token.name? := by
    rw [← d.cut_iff_items_lex.mp hd.cut, Lexed.items, List.filterMap_map]
    rfl
  unfold parseNames
  constructor
  · intro h
    cases hl : grammatical text with
    | error error =>
      rw [hl] at h
      cases h
    | ok l =>
      obtain ⟨rfl, d, hd⟩ := grammatical_eq_ok_iff.mp hl
      rw [hl] at h
      cases h
      exact ⟨d, hd, by rw [hnames hd]⟩
  · rintro ⟨d, hd, rfl⟩
    rw [grammatical_eq_ok_iff.mpr ⟨rfl, d, hd⟩, ← hnames hd]
    rfl

theorem parse_eq_error_of_parseNames [Scalar α] (h : parseNames text = .error error) :
    (parse text : Except SyntaxError (Expr α)) = .error error := by
  unfold parseNames at h
  unfold parse parseWith
  cases hl : grammatical text with
  | error error' =>
    rw [hl] at h
    cases h
    rfl
  | ok l =>
    rw [hl] at h
    cases h

/-- Nothing in a sentence is refused but its literals. -/
theorem Sentence.of_parse_eq_error [Scalar α] {d : Derivation Numeral 0} (hd : Sentence text d)
    (h : (parse text : Except SyntaxError (Expr α)) = .error error) :
    ∃ n p, .literal n ∈ d.tokens ∧ (Scalar.ofNumeral? n : Option α) = none ∧
      error = ⟨.refusedLiteral n, some p⟩ := by
  have hitems := d.cut_iff_items_lex.mp hd.cut
  cases hvalues : (lex text).values (Scalar.ofNumeral? : Numeral → Option α) with
  | error error' =>
    rw [parse, parseWith, grammatical_eq_ok_iff.mpr ⟨rfl, d, hd⟩] at h
    simp only [bind, Except.bind, hvalues] at h
    cases h
    rw [← hitems]
    exact Lexed.of_values_eq_error hvalues
  | ok l =>
    let read (n : Numeral) : α := (Scalar.ofNumeral? n).getD Scalar.zero
    have hread (n : Numeral) (hn : .literal n ∈ d.tokens) :
        Scalar.ofNumeral? n = some (read n) := by
      obtain ⟨x, hx⟩ := Option.isSome_iff_exists.mp
        (Lexed.isSome_of_values_eq_ok hvalues (hitems ▸ hn))
      simp only [read, hx, Option.getD_some]
    cases h.symm.trans (parse_eq_ok_iff.mpr ⟨d, read, hd, hread, rfl⟩)

theorem Sentence.exists_parse [Scalar α] {d : Derivation Numeral 0} (hd : Sentence text d)
    (h : ∀ n, .literal n ∈ d.tokens → (Scalar.ofNumeral? n : Option α).isSome) :
    ∃ e : Expr α, parse text = .ok e := by
  cases he : (parse text : Except SyntaxError (Expr α)) with
  | ok e => exact ⟨e, rfl⟩
  | error error =>
    obtain ⟨n, p, hn, hnone, -⟩ := hd.of_parse_eq_error he
    have hsome := h n hn
    rw [hnone] at hsome
    cases hsome

end Collect

/-- The names collected from the tokens are those of the tree. Where they are refused the tree is
refused in the same way, and otherwise the tree is refused for its literals alone. -/
theorem parseNames_agrees [Scalar α] (text : String) :
    (∀ e : Expr α, parse text = .ok e → ∃ names, parseNames text = .ok names ∧
      names.toList = e.names.toList ∧ ∀ name, name ∈ names ↔ e.Mentions name) ∧
    (∀ error, parseNames text = .error error →
      (parse text : Except SyntaxError (Expr α)) = .error error) ∧
    (∀ names error, parseNames text = .ok names →
      (parse text : Except SyntaxError (Expr α)) = .error error →
        ∃ d n p, Sentence text d ∧ .literal n ∈ d.tokens ∧
          (Scalar.ofNumeral? n : Option α) = none ∧ error = ⟨.refusedLiteral n, some p⟩) ∧
    ((∀ n : Numeral, n.IsLexeme → (Scalar.ofNumeral? n : Option α).isSome) →
      ∀ names, parseNames text = .ok names → ∃ e : Expr α, parse text = .ok e) := by
  refine ⟨fun e he => ?_, fun error => parse_eq_error_of_parseNames,
    fun names error hnames he => ?_, fun hread names hnames => ?_⟩
  · obtain ⟨d, read, hd, -, rfl⟩ := parse_eq_ok_iff.mp he
    have hmem (name : String) :
        name ∈ Std.TreeSet.ofList (d.tokens.filterMap Token.name?) ↔
          (d.map read).tree.Mentions name := by
      rw [Std.TreeSet.mem_ofList, List.contains_iff_mem, d.mem_names_iff read]
    refine ⟨_, parseNames_eq_ok_iff.mpr ⟨d, hd, rfl⟩, ?_, hmem⟩
    refine (Std.TreeSet.Equiv.of_forall_mem_iff fun name => ?_).toList_eq
    rw [hmem, Expr.mem_names]
  · obtain ⟨d, hd, -⟩ := parseNames_eq_ok_iff.mp hnames
    obtain ⟨n, p, hn, hnone, herror⟩ := hd.of_parse_eq_error he
    exact ⟨d, n, p, hd, hn, hnone, herror⟩
  · obtain ⟨d, hd, -⟩ := parseNames_eq_ok_iff.mp hnames
    exact hd.exists_parse fun n hn => hread n (hd.cut.isLexeme _ hn)

/-- The `e5` in `1e5 + e5` is a name once, a mark without digits is an error of both, and `1e999` is
refused where numbers are finite. -/
theorem parseNames_agrees_exponent :
    (∃ (e : Expr Float) (names : Std.TreeSet String), parse "1e5 + e5" = .ok e ∧
      parseNames "1e5 + e5" = .ok names ∧ names.toList = e.names.toList ∧
      ∀ name, name ∈ names ↔ name = "e5") ∧
    (∃ error, parseNames "1e+ e5" = .error error ∧
      (parse "1e+ e5" : Except SyntaxError (Expr Float)) = .error error) ∧
    (∃ names error d n p, parseNames "e5*1e999" = .ok names ∧
      (parse "e5*1e999" : Except SyntaxError (Expr StrictFloat)) = .error error ∧
      Sentence "e5*1e999" d ∧ .literal n ∈ d.tokens ∧
      (Scalar.ofNumeral? n : Option StrictFloat) = none ∧ error = ⟨.refusedLiteral n, some p⟩) ∧
    (∀ n : Numeral, n.IsLexeme → (Scalar.ofNumeral? n : Option Float).isSome) := by
  have hfloat (n : Numeral) (_ : n.IsLexeme) : (Scalar.ofNumeral? n : Option Float).isSome := rfl
  refine ⟨?_, ?_, ?_, hfloat⟩
  · let literal : Derivation Numeral 4 := .literal ⟨['1'], none, some ⟨'e', none, ['5']⟩⟩
    let d : Derivation Numeral 0 := .tighter (by decide) (.tighter (by decide)
      (.infixed .plus .add rfl rfl (.tighter (by decide) (.tighter (by decide) literal))
        (.tighter (by decide) (.name ['e', '5']))))
    have hcut : Cut "1e5 + e5".toList d.tokens := d.cut_iff_items_lex.mpr (by decide +kernel)
    have hlimit : d.WithinLimit := by
      simp [d, literal, Derivation.WithinLimit, Derivation.depths, maxNesting]
    have hparse : parse "1e5 + e5" = .ok (d.map fun n => n.roundBy Float.ofScientific).tree :=
      parse_eq_ok_iff.mpr ⟨d, _, ⟨hcut, hlimit⟩, fun n _ => rfl, rfl⟩
    obtain ⟨names, hnames, hlist, hmem⟩ := (parseNames_agrees "1e5 + e5").1 _ hparse
    refine ⟨_, names, hparse, hnames, hlist, fun name => (hmem name).trans ?_⟩
    simp [d, literal, Derivation.map, Derivation.tree, Expr.mentions_apply, eq_comm]
  · have herror : parseNames "1e+ e5" = .error (.unexpected .operatorOrEnd ⟨1, 2⟩) := by
      rw [parseNames, show grammatical "1e+ e5" = .error (.unexpected .operatorOrEnd ⟨1, 2⟩) by
        decide +kernel]
      rfl
    exact ⟨_, herror, (parseNames_agrees "1e+ e5").2.1 _ herror⟩
  · let huge : Numeral := ⟨['1'], none, some ⟨'e', none, ['9', '9', '9']⟩⟩
    let d : Derivation Numeral 0 := .tighter (by decide) (.tighter (by decide) (.tighter (by decide)
      (.infixed .star .multiply rfl rfl (.tighter (by decide) (.name ['e', '5'])) (.literal huge))))
    have hcut : Cut "e5*1e999".toList d.tokens := d.cut_iff_items_lex.mpr (by decide +kernel)
    have hlimit : d.WithinLimit := by
      simp [d, Derivation.WithinLimit, Derivation.depths, maxNesting]
    have hhuge : (Scalar.ofNumeral? huge : Option StrictFloat) = none := by decide +kernel
    have hnames := parseNames_eq_ok_iff.mpr ⟨d, ⟨hcut, hlimit⟩, rfl⟩
    cases hparse : (parse "e5*1e999" : Except SyntaxError (Expr StrictFloat)) with
    | ok e =>
      obtain ⟨d', read, hd', hread, -⟩ := parse_eq_ok_iff.mp hparse
      obtain rfl := Derivation.eq_of_cut hcut hd'.cut
      have hsome := hread huge (by simp [d, Derivation.tokens])
      rw [hhuge] at hsome
      cases hsome
    | error error =>
      obtain ⟨d', n, p, hrefused⟩ := (parseNames_agrees "e5*1e999").2.2.1 _ error hnames hparse
      exact ⟨_, error, d', n, p, hnames, rfl, hrefused⟩

end DecisionDiagrams
