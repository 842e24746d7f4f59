import DecisionDiagrams.Proofs.Grammar.Refusal

/-! Reading a text by its rules: the scan for nesting comes first, then the rules are tried, and
climbing over the pairs that they leave makes the tree. -/
namespace DecisionDiagrams

variable {α β : Type}

inductive ReadBy (make? : List Pair → Option (Except SyntaxError β)) (text : String) :
    Except SyntaxError β → Prop where
  | tooDeep {p : Position} (h : Nesting.start.tooDeepAt? Position.start text.toList = some p) :
      ReadBy make? text (.error ⟨.tooDeep, some p⟩)
  | failed {a : Attempts} {due : Expected}
      (hdepth : Nesting.start.tooDeepAt? Position.start text.toList = none)
      (h : Recognises text (.failed a)) (hdue : (SyntaxFault.unexpected due).message = a.message) :
      ReadBy make? text (.error ⟨.unexpected due, some a.position⟩)
  | matched {s : State} {pairs : List Pair} {result : Except SyntaxError β}
      (hdepth : Nesting.start.tooDeepAt? Position.start text.toList = none)
      (h : Recognises text (.matched s pairs)) (hmake : make? pairs = some result) :
      ReadBy make? text result

theorem Expected.message_injective : Function.Injective Expected.message := by
  intro due due' h
  cases due <;> cases due' <;> first | rfl | exact absurd h (by decide)

/-- A text is read in one way only. -/
theorem ReadBy.unique {make? : List Pair → Option (Except SyntaxError β)} {text : String}
    {result result' : Except SyntaxError β} (h : ReadBy make? text result)
    (h' : ReadBy make? text result') : result = result' := by
  cases h with
  | tooDeep hdepth =>
    cases h' with
    | tooDeep hdepth' => cases hdepth.symm.trans hdepth'; rfl
    | failed hdepth' => cases hdepth.symm.trans hdepth'
    | matched hdepth' => cases hdepth.symm.trans hdepth'
  | failed hdepth hfailed hdue =>
    cases h' with
    | tooDeep hdepth' => cases hdepth.symm.trans hdepth'
    | failed _ hfailed' hdue' =>
      cases hfailed.unique hfailed'
      rw [Expected.message_injective (hdue.trans hdue'.symm)]
    | matched _ hmatched' => cases hfailed.unique hmatched'
  | matched hdepth hmatched hmake =>
    cases h' with
    | tooDeep hdepth' => cases hdepth.symm.trans hdepth'
    | failed _ hfailed' => cases hmatched.unique hfailed'
    | matched _ hmatched' hmake' =>
      cases hmatched.unique hmatched'
      exact Option.some.inj (hmake.symm.trans hmake')

/-- Climbing over the pairs of an expression, with errors in place of operands. -/
def Pair.tree? (ofNumeral? : Numeral → Option α) (pairs : List Pair) :
    Option (Except SyntaxError (Expr α)) :=
  (exprRow? pairs).map (Row.value (reader ofNumeral?))

def Pair.nameSet? (pairs : List Pair) : Option (Except SyntaxError (Std.TreeSet String)) :=
  some (.ok (.ofList (names pairs)))

section Read

variable {text : String}

/-- The rules end where reading the tokens ends, with the row of a sentence or with an error. -/
theorem readBy_grammatical {make? : List Pair → Option (Except SyntaxError β)}
    {read : Lexed Numeral → Except SyntaxError β}
    (hmake : ∀ d, Sentence text d → ∀ p w inner q row, Pair.row? inner = some row →
      row.tokens = (lex text).placed →
        make? [⟨.expr, p, w, inner⟩, ⟨.endOfInput, q, [], []⟩] = some (read (lex text))) :
    ReadBy make? text ((grammatical text).bind read) := by
  cases hdepth : Nesting.start.tooDeepAt? Position.start text.toList with
  | some p =>
    rw [grammatical_eq_tooDeep_iff.mpr hdepth]
    exact .tooDeep hdepth
  | none =>
    obtain ⟨s, p, w, inner, q, row, hmatched, hinner, hrow⟩ | ⟨a, due, hfailed, hrules, herror⟩ :=
      recognises text
    · obtain ⟨d, hcut⟩ := exists_cut_of_row hrow
      have hd : Sentence text d := ⟨hcut, (d.withinLimit_iff hcut Position.start).mp hdepth⟩
      rw [grammatical_eq_ok_iff.mpr ⟨rfl, d, hd⟩]
      exact .matched hdepth hmatched (hmake d hd p w inner q row hinner hrow)
    · have hrefused : grammatical text = .error (.unexpected due a.position) := by
        simp only [grammatical, hdepth, herror]
        rfl
      rw [hrefused]
      refine .failed hdepth hfailed ?_
      rw [Attempts.message, hrules]
      exact (due.message_rules a.position).symm

/-- Reading the tokens of a text is reading it by its rules, whichever literals are refused. -/
theorem parse_eq_iff_readBy [Scalar α] {result : Except SyntaxError (Expr α)} :
    parse text = result ↔ ReadBy (Pair.tree? Scalar.ofNumeral?) text result := by
  obtain ⟨read, hread⟩ := exists_read (Scalar.ofNumeral? : Numeral → Option α)
  have hparse : ReadBy (Pair.tree? Scalar.ofNumeral?) text
      (parse text : Except SyntaxError (Expr α)) := by
    refine readBy_grammatical fun d hd p w inner q row hinner hrow => ?_
    rw [Pair.tree?, Pair.exprRow?, hinner, Option.map_some, hd.value_row_eq hread hrow, parseWith,
      grammatical_eq_ok_iff.mpr ⟨rfl, d, hd⟩]
    rfl
  exact ⟨fun h => h ▸ hparse, hparse.unique⟩

/-- The names among the tokens of a text are those in the pairs that its rules leave. -/
theorem parseNames_eq_iff_readBy {result : Except SyntaxError (Std.TreeSet String)} :
    parseNames text = result ↔ ReadBy Pair.nameSet? text result := by
  have hread : ReadBy Pair.nameSet? text (parseNames text) := by
    refine readBy_grammatical fun d hd p w inner q row hinner hrow => ?_
    rw [Pair.nameSet?, Pair.names_calculation hinner, hrow, Lexed.placed, List.filterMap_map]
    simp only [Function.comp_def, Token.name?_place]
    rfl
  exact ⟨fun h => h ▸ hread, hread.unique⟩

end Read

/-- Exactly the sentences that are not nested too deep are read, and the tree is that of the only
derivation. Any other text is refused at a place in it. The rules, with climbing over what they
match, read every text in the same way. -/
theorem parse_ok_iff_sentence [Scalar α] {read : Numeral → α}
    (hread : ∀ n : Numeral, n.IsLexeme → Scalar.ofNumeral? n = some (read n)) (text : String) :
    (∀ e, parse text = .ok e ↔ ∃ d, Sentence text d ∧ (d.map read).tree = e) ∧
    (∀ d d' : Derivation Numeral 0, Cut text.toList d.tokens → Cut text.toList d'.tokens →
      d = d') ∧
    ((¬∃ d, Sentence text d) → ∃ error p,
      (parse text : Except SyntaxError (Expr α)) = .error error ∧ error.position = some p) ∧
    ∀ result : Except SyntaxError (Expr α),
      parse text = result ↔ ReadBy (Pair.tree? Scalar.ofNumeral?) text result := by
  have hiff (e : Expr α) : parse text = .ok e ↔ ∃ d, Sentence text d ∧ (d.map read).tree = e :=
    parseWith_eq_ok_iff hread
  refine ⟨hiff, fun d d' => Derivation.eq_of_cut, fun hnone => ?_, fun _ => parse_eq_iff_readBy⟩
  cases hparse : (parse text : Except SyntaxError (Expr α)) with
  | error error =>
    obtain ⟨p, hp⟩ := position_of_parseWith_eq_error hparse
    exact ⟨error, p, rfl, hp⟩
  | ok e =>
    obtain ⟨d, hd, -⟩ := (hiff e).mp hparse
    exact absurd ⟨d, hd⟩ hnone

/-- Both precisions read every numeral, so `a - -2e-3` is the difference of `a` and a negated
literal. -/
theorem parse_ok_iff_sentence_difference :
    (∀ n : Numeral, n.IsLexeme →
      (Scalar.ofNumeral? n : Option Float) = some (n.roundBy Float.ofScientific)) ∧
    (∀ n : Numeral, n.IsLexeme →
      (Scalar.ofNumeral? n : Option Float32) = some (n.roundBy Float32.ofScientific)) ∧
    parse "a - -2e-3" = .ok (.apply .subtract [.variable "a", .apply .negate
      [.literal
        (Numeral.roundBy Float.ofScientific ⟨['2'], none, some ⟨'e', some '-', ['3']⟩⟩)]]) := by
  have hread (n : Numeral) (_ : n.IsLexeme) :
      (Scalar.ofNumeral? n : Option Float) = some (n.roundBy Float.ofScientific) := rfl
  let d : Derivation Numeral 0 := .tighter (by decide) (.tighter (by decide)
    (.infixed .minus .subtract rfl rfl (.tighter (by decide) (.tighter (by decide) (.name ['a'])))
      (.tighter (by decide) (.prefixed .minus .negate rfl
        (.literal ⟨['2'], none, some ⟨'e', some '-', ['3']⟩⟩)))))
  have hcut : Cut "a - -2e-3".toList d.tokens := d.cut_iff_items_lex.mpr (by decide +kernel)
  have hlimit : d.WithinLimit := by simp [d, Derivation.WithinLimit, Derivation.depths, maxNesting]
  exact ⟨hread, fun n _ => rfl, ((parse_ok_iff_sentence hread _).1 _).mpr ⟨d, ⟨hcut, hlimit⟩, rfl⟩⟩

end DecisionDiagrams
