import DecisionDiagrams.Proofs.Grammar.Language
import DecisionDiagrams.Proofs.Grammar.Spelling

/-! Texts that are read although some literals are refused, and expressions that are put into
parentheses behind negations. -/
namespace DecisionDiagrams

def Derivation.notNot {α : Type} (d : Derivation α 0) : Derivation α 0 :=
  .tighter (by decide) (.tighter (by decide) (.tighter (by decide) (.tighter (by decide)
    (.prefixed .bang .not rfl (.prefixed .bang .not rfl (.group d))))))

theorem Derivation.mem_tokens_notNot {α : Type} (d : Derivation α 0) {t : Token α} :
    t ∈ d.notNot.tokens ↔
      t ∈ d.tokens ∨ t = .symbol .bang ∨ t = .symbol .opening ∨ t = .symbol .closing := by
  simp only [notNot, tokens, List.mem_cons, List.mem_append, List.not_mem_nil, or_false]
  tauto

theorem Sentence.notNot {text : String} {d : Derivation Numeral 0} (h : Sentence text d)
    (hdepth : Nesting.start.tooDeepAt? Position.start ("!!(" ++ text ++ ")").toList = none) :
    Sentence ("!!(" ++ text ++ ")") d.notNot := by
  have hcut : Cut ("!!(" ++ text ++ ")").toList d.notNot.tokens := by
    have hspaced : Spaced ("!!(" ++ text ++ ")").toList d.notNot.tokens := by
      rw [String.toList_append, String.toList_append]
      have hclosed := h.cut.spaced.append (.token (.symbol .closing) .nil)
      exact .token (.symbol .bang) (.token (.symbol .bang) (.token (.symbol .opening) hclosed))
    refine d.notNot.cut_iff_spaced.mpr ⟨hspaced, fun t ht => ?_⟩
    rcases d.mem_tokens_notNot.mp ht with ht | rfl | rfl | rfl
    · exact h.cut.isLexeme t ht
    all_goals trivial
  exact ⟨hcut, (d.notNot.withinLimit_iff hcut Position.start).mp hdepth⟩

section Parse

variable {α : Type} [Scalar α] {text : String} {e : Expr α}

theorem exists_values_of_parse (h : parse text = .ok e) :
    ∃ l, (lex text).values (Scalar.ofNumeral? : Numeral → Option α) = .ok l := by
  unfold parse parseWith at h
  cases hl : grammatical text with
  | error error =>
    rw [hl] at h
    cases h
  | ok l =>
    obtain ⟨rfl, -⟩ := grammatical_eq_ok_iff.mp hl
    rw [hl] at h
    cases hvalues : (lex text).values (Scalar.ofNumeral? : Numeral → Option α) with
    | error error =>
      simp only [bind, Except.bind, hvalues] at h
      cases h
    | ok l' => exact ⟨l', rfl⟩

/-- Exactly the sentences that are not nested too deep and have no literal that is refused are
read. -/
theorem parse_eq_ok_iff :
    parse text = .ok e ↔ ∃ (d : Derivation Numeral 0) (read : Numeral → α), Sentence text d ∧
      (∀ n, .literal n ∈ d.tokens → Scalar.ofNumeral? n = some (read n)) ∧
        (d.map read).tree = e := by
  constructor
  · intro h
    obtain ⟨l, hvalues⟩ := exists_values_of_parse h
    let read (n : Numeral) : α := (Scalar.ofNumeral? n).getD Scalar.zero
    have hread (n : Numeral) (hn : .literal n ∈ (lex text).items) :
        Scalar.ofNumeral? n = some (read n) := by
      obtain ⟨x, hx⟩ := Option.isSome_iff_exists.mp (Lexed.isSome_of_values_eq_ok hvalues hn)
      simp only [read, hx, Option.getD_some]
    obtain ⟨d, hd, htree⟩ := (parseWith_eq_ok_iff_of_read hread).mp h
    rw [d.cut_iff_items_lex.mp hd.cut] at hread
    exact ⟨d, read, hd, hread, htree⟩
  · rintro ⟨d, read, hd, hread, htree⟩
    rw [← d.cut_iff_items_lex.mp hd.cut] at hread
    exact (parseWith_eq_ok_iff_of_read hread).mpr ⟨d, hd, htree⟩

/-- Within the limit of nesting, a text that is read can be read in parentheses behind two
negations. -/
theorem parse_notNot (h : parse text = .ok e)
    (hdepth : Nesting.start.tooDeepAt? Position.start ("!!(" ++ text ++ ")").toList = none) :
    parse ("!!(" ++ text ++ ")") = .ok (.apply .not [.apply .not [e]]) := by
  obtain ⟨d, read, hd, hread, rfl⟩ := parse_eq_ok_iff.mp h
  refine parse_eq_ok_iff.mpr ⟨d.notNot, read, hd.notNot hdepth, ?_, rfl⟩
  intro n hn
  apply hread n
  simpa using d.mem_tokens_notNot.mp hn

end Parse

end DecisionDiagrams
