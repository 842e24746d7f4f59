import DecisionDiagrams.Proofs.Grammar.Depth
import DecisionDiagrams.Proofs.Grammar.Names
import DecisionDiagrams.Proofs.Grammar.Recognition
import DecisionDiagrams.Proofs.Grammar.Viability

/-! Where a text that is no sentence is refused: behind the longest run of its tokens with which a
sentence can begin. -/
namespace DecisionDiagrams

section Lex

variable {done : List (Located (Token Numeral))} {p : Position} {cs : List Char}

theorem exists_tokens_lexFrom (done : List (Located (Token Numeral))) (p : Position)
    (cs : List Char) : ∃ located, (lexFrom done p cs).tokens = done.reverse ++ located :=
  ⟨_, congrArg Lexed.tokens (lexFrom_eq done p cs)⟩

structure Follows (l : Lexed Numeral) (p : Position) (later : List (Located (Token Numeral)))
    (rest : List Char) : Prop where
  token : ∀ t more, later = t :: more → t.position = p ∧
    ∃ c cs, rest = c :: cs ∧ isSeparator c = false ∧ t.item = (Token.scan c cs).1
  finish : later = [] → rest = [] ∧ l.finish = p

/-- Where lexing has found some of the tokens, they are cut off. -/
theorem exists_cutBefore {first later : List (Located (Token Numeral))}
    (h : (lexFrom done p cs).tokens = done.reverse ++ (first ++ later))
    (hfirst : ∀ t ∈ first, t.item.IsLexeme) :
    ∃ before rest, cs = before ++ rest ∧ CutBefore rest before (first.map Located.item) ∧
      Follows (lexFrom done p cs) (p.afterAll before) later rest := by
  fun_induction lexFrom done p cs generalizing first with
  | case1 done p =>
    obtain ⟨rfl, rfl⟩ : first = [] ∧ later = [] := by simpa using h
    exact ⟨[], [], rfl, .nil, by rintro _ _ ⟨⟩, fun _ => ⟨rfl, rfl⟩⟩
  | case2 done p c cs hc ih =>
    obtain ⟨before, rest, rfl, hcut, hfollows⟩ := ih h hfirst
    exact ⟨c :: before, rest, rfl, .separator hc hcut, hfollows⟩
  | case3 done p c cs hc scanned =>
    rename_i ih
    obtain ⟨located, hlocated⟩ := exists_tokens_lexFrom (⟨p, scanned.1⟩ :: done)
      (p.afterAll scanned.1.spelling) scanned.2
    have heq : first ++ later = ⟨p, scanned.1⟩ :: located := by
      rw [hlocated, List.reverse_cons, List.append_assoc] at h
      exact (List.append_cancel_left h).symm
    cases first with
    | nil =>
      obtain rfl := heq
      refine ⟨[], c :: cs, rfl, .nil, ?_, by rintro ⟨⟩⟩
      rintro t more ⟨⟩
      exact ⟨rfl, c, cs, rfl, by simpa using hc, rfl⟩
    | cons t first =>
      obtain ⟨rfl, rfl⟩ := List.cons.inj heq
      obtain ⟨hscan, hfirst⟩ := List.forall_mem_cons.mp hfirst
      obtain ⟨before, rest, hcs, hcut, hfollows⟩ := ih (by simpa using hlocated) hfirst
      refine ⟨scanned.1.spelling ++ before, rest, ?_, ?_, ?_⟩
      · rw [List.append_assoc, ← hcs, Token.spelling_append_scan]
      · exact .token (hcs ▸ Token.isLongest_scan hscan) hcut
      · rwa [Position.afterAll_append]

end Lex

/-- A token that may come next is found there, if not a longer one of its kind. -/
theorem Token.IsLexeme.next?_scan {t : Token Numeral} (ht : t.IsLexeme) {c : Char}
    {cs rest : List Char} (h : t.spelling ++ rest = c :: cs) {r : Reading Numeral}
    (hnext : (r.next? t).isSome) : (r.next? (Token.scan c cs).1).isSome := by
  cases t with
  | literal n =>
    obtain ⟨n', rest', -, hscan, -⟩ := scan_of_numeral ht h
    rw [hscan]
    cases r with
    | before frames => rfl
    | after frames tree => exact absurd hnext Bool.false_ne_true
  | name text =>
    obtain ⟨c', cs', rfl, hstart, -⟩ := ht
    obtain ⟨rfl, -⟩ := List.cons.inj h
    rw [scan_name hstart]
    cases r with
    | before frames => rfl
    | after frames tree => exact absurd hnext Bool.false_ne_true
  | symbol s => rwa [scan_symbol h]
  | stray c' => exact absurd ht id

section Completion

variable {before : List Char} {ts us : List (Token Numeral)}

/-- A name and closing parentheses go no deeper. -/
theorem Nesting.depths_completion_le {n : Nesting}
    (h : ∀ t ∈ us, t = .name ['x'] ∨ t = .symbol .closing) :
    ∀ depth ∈ n.depths us, depth ≤ n.depth := by
  induction us generalizing n with
  | nil => nofun
  | cons t us ih =>
    obtain ⟨ht, hus⟩ := List.forall_mem_cons.mp h
    have hle : (n.read t).depth ≤ n.depth := by
      rcases ht with rfl | rfl
      · exact n.depth_operand_le
      · exact n.depth_closeGroup_le
    exact List.forall_mem_cons.mpr ⟨hle, fun depth hdepth => (ih hus depth hdepth).trans hle⟩

/-- The text that is written from tokens without separators. -/
theorem spaced_flatMap (us : List (Token Numeral)) : Spaced (us.flatMap Token.spelling) us := by
  induction us with
  | nil => exact .nil
  | cons t us ih => exact .token t ih

/-- Closing what is open completes a sentence that is not nested deeper. -/
theorem Cut.sentence_append {d : Derivation Numeral 0} {p : Position} (h : Cut before ts)
    (hpass : Nesting.start.tooDeepAt? p before = none) (hd : d.tokens = ts ++ us)
    (hus : ∀ t ∈ us, t = .name ['x'] ∨ t = .symbol .closing) :
    Sentence (String.ofList (before ++ us.flatMap Token.spelling)) d := by
  have hlexeme : ∀ t ∈ d.tokens, t.IsLexeme := by
    rw [hd]
    refine List.forall_mem_append.mpr ⟨h.isLexeme, fun t ht => ?_⟩
    rcases hus t ht with rfl | rfl
    · exact ⟨'x', [], rfl, by decide, nofun⟩
    · trivial
  have hspaced : Spaced (String.ofList (before ++ us.flatMap Token.spelling)).toList d.tokens := by
    rw [hd, String.toList_ofList]
    exact h.spaced.append (spaced_flatMap us)
  have hcut := d.cut_iff_spaced.mpr ⟨hspaced, hlexeme⟩
  refine ⟨hcut, ?_⟩
  rw [← d.withinLimit_iff hcut p, Nesting.tooDeepAt?_eq_none_iff hcut (Nat.zero_le _), hd,
    Nesting.depths_append, List.forall_mem_append]
  refine ⟨(Nesting.tooDeepAt?_eq_none_iff h (Nat.zero_le _) p).mp hpass, fun depth hdepth => ?_⟩
  exact (Nesting.depths_completion_le hus depth hdepth).trans
    (Nesting.depth_readAll_le hpass List.prefix_rfl h List.prefix_rfl)

end Completion

/-- Lexing and reading a text that is no sentence stop behind tokens with which one can begin. -/
theorem exists_fault {text : String} (h : ¬∃ d : Derivation Numeral 0, Cut text.toList d.tokens) :
    ∃ before rest ts, ∃ r : Reading Numeral, text.toList = before ++ rest ∧
      CutBefore rest before ts ∧ Reading.start.nextAll? ts = some r ∧
      (∀ c cs, rest = c :: cs → isSeparator c = false ∧ r.next? (Token.scan c cs).1 = none) ∧
      (lex text).tree = .error (.unexpected r.expected (Position.start.afterAll before)) := by
  cases htree : (lex text).tree with
  | ok e =>
    obtain ⟨d, hd, -⟩ := Lexed.tree_eq_ok_iff.mp htree
    exact absurd ⟨d, d.cut_iff_items_lex.mpr hd.symm⟩ h
  | error error =>
    obtain ⟨first, later, r, htokens, hread, hrefused⟩ := Reading.of_run_eq_error htree
    have hfirst (t : Located (Token Numeral)) (ht : t ∈ first) : t.item.IsLexeme := by
      have hitem : t.item ∈ (lex text).items :=
        List.mem_map.mpr ⟨t, htokens ▸ List.mem_append_left later ht, rfl⟩
      obtain ⟨d, us, hus⟩ := viable_iff.mpr ⟨r, hread⟩
      have hmem : t.item ∈ d.tokens := hus ▸ List.mem_append_left us (List.mem_map_of_mem ht)
      refine (isLexeme_or_stray_of_lex hitem).resolve_right ?_
      rintro ⟨c, hc⟩
      exact d.ne_stray_of_mem_tokens hmem c hc
    have hlex : (lexFrom [] Position.start text.toList).tokens = [].reverse ++ (first ++ later) :=
      htokens
    obtain ⟨before, rest, htext, hcut, hfollows⟩ := exists_cutBefore hlex hfirst
    refine ⟨before, rest, _, r, htext, hcut, hread, ?_⟩
    rcases hrefused with ⟨t, more, rfl, hnext, rfl⟩ | ⟨rfl, -, rfl⟩
    · obtain ⟨hposition, c, cs, rfl, hc, hitem⟩ := hfollows.token t more rfl
      refine ⟨?_, by rw [hposition]⟩
      rintro _ _ ⟨⟩
      exact ⟨hc, hitem ▸ hnext⟩
    · obtain ⟨rfl, hfinish⟩ := hfollows.finish rfl
      exact ⟨nofun, by rw [← hfinish]; rfl⟩

/-- A text that is no sentence is refused where its tokens stop to begin one, and for what is due
there. The rules fail at the same place, with the same message. -/
theorem refused_at_first_unexpected (text : String)
    (hpass : ∀ p, grammatical text ≠ .error ⟨.tooDeep, some p⟩)
    (hnot : ¬∃ d : Derivation Numeral 0, Cut text.toList d.tokens) :
    ∃ before rest ts, text.toList = before ++ rest ∧ CutBefore rest before ts ∧
      (∀ c ∈ rest.head?, isSeparator c = false) ∧
      (∃ more, ∀ (α : Type) [Scalar α],
        (∀ n, .literal n ∈ ts → (Scalar.ofNumeral? n : Option α).isSome) →
          ∃ e : Expr α, parse (String.ofList (before ++ more)) = .ok e) ∧
      (∀ t : Token Numeral, t.IsLexeme → Viable (ts ++ [t]) → ¬t.spelling <+: rest) ∧
      Expected.WordedAfter ts (SyntaxFault.unexpected (.due ts)).message ∧
      (∃ a, Recognises text (.failed a) ∧ a.position = Position.start.afterLines before ∧
        a.message = (SyntaxFault.unexpected (.due ts)).message) ∧
      parseNames text =
        .error ⟨.unexpected (.due ts), some (Position.start.afterLines before)⟩ ∧
      ∀ (α : Type) [Scalar α], (parse text : Except SyntaxError (Expr α)) =
        .error ⟨.unexpected (.due ts), some (Position.start.afterLines before)⟩ := by
  have hnone : Nesting.start.tooDeepAt? Position.start text.toList = none := by
    simp only [ne_eq, grammatical_eq_tooDeep_iff] at hpass
    exact Option.eq_none_iff_forall_ne_some.mpr hpass
  obtain ⟨before, rest, ts, r, htext, hcut, hread, hrefused, htree⟩ := exists_fault hnot
  have hderives := Reading.derives_of_nextAll? hread
  rw [hderives.expected_eq, ← Position.afterLines_eq] at htree
  have hnames : parseNames text =
      .error ⟨.unexpected (.due ts), some (Position.start.afterLines before)⟩ := by
    simp only [parseNames, grammatical, hnone, htree]
    rfl
  refine ⟨before, rest, ts, htext, hcut, ?_, ?_, ?_, Expected.wordedAfter_due ts, ?_, hnames,
    fun α _ => parse_eq_error_of_parseNames hnames⟩
  · intro c hc
    obtain ⟨cs, rfl⟩ := List.head?_eq_some_iff.mp hc
    exact (hrefused c cs rfl).1
  · obtain ⟨us, d, hd, hus⟩ := hderives.exists_completion
    have hsentence :=
      hcut.cut.sentence_append (Nesting.tooDeepAt?_of_append (htext ▸ hnone)) hd hus
    refine ⟨us.flatMap Token.spelling, fun α _ hvalue => hsentence.exists_parse fun n hn => ?_⟩
    rw [hd, List.mem_append] at hn
    refine hvalue n (hn.resolve_right fun hmem => ?_)
    rcases hus _ hmem with h | h <;> cases h
  · rintro t ht hviable ⟨more, hmore⟩
    obtain ⟨c, cs, hcs⟩ := List.exists_cons_of_ne_nil
      (List.append_ne_nil_of_left_ne_nil (Token.spelling_ne_nil ht) more)
    obtain ⟨r', hread'⟩ := viable_iff.mp hviable
    rw [Reading.nextAll?_append, hread, Option.bind_some, Reading.nextAll?_cons] at hread'
    obtain ⟨r₁, hnext, -⟩ := Option.bind_eq_some_iff.mp hread'
    have hscan := ht.next?_scan hcs (Option.isSome_of_eq_some hnext)
    rw [(hrefused c cs (hmore ▸ hcs)).2] at hscan
    cases hscan
  · obtain ⟨_, _, _, _, _, row, -, -, hrow⟩ | ⟨a, due, hfailed, hrules, herror⟩ := recognises text
    · exact absurd (exists_cut_of_row hrow) hnot
    · obtain ⟨rfl, hposition⟩ : .due ts = due ∧ Position.start.afterLines before = a.position := by
        simpa [SyntaxError.unexpected] using htree.symm.trans herror
      have hmessage : a.message = (Expected.due ts).message := by
        rw [← Expected.message_rules _ a.position, ← hrules]
      exact ⟨a, hfailed, hposition.symm, hmessage⟩

/-- In the second line an exponent lacks its digits, so its mark stands where an operator is due. -/
theorem refused_at_first_unexpected_exponent :
    (∀ p, grammatical "a\r\n && (1e+ b" ≠ .error ⟨.tooDeep, some p⟩) ∧
    (¬∃ d : Derivation Numeral 0, Cut "a\r\n && (1e+ b".toList d.tokens) ∧
    ∃ before rest ts, "a\r\n && (1e+ b".toList = before ++ rest ∧ CutBefore rest before ts ∧
      Position.start.afterLines before = ⟨2, 7⟩ ∧ Expected.due ts = .operatorInGroup ∧
      (∃ more, ∃ e : Expr Float, parse (String.ofList (before ++ more)) = .ok e) ∧
      (∀ t : Token Numeral, t.IsLexeme → Viable (ts ++ [t]) → ¬t.spelling <+: rest) ∧
      (SyntaxFault.unexpected (.due ts)).message =
        "expected add, subtract, multiply, divide, and, or or" ∧
      (∃ a, Recognises "a\r\n && (1e+ b" (.failed a) ∧
        a.position = Position.start.afterLines before ∧
        a.message = (SyntaxFault.unexpected (.due ts)).message) ∧
      (parse "a\r\n && (1e+ b" : Except SyntaxError (Expr Float)) =
        .error ⟨.unexpected (.due ts), some (Position.start.afterLines before)⟩ := by
  have herror : grammatical "a\r\n && (1e+ b" = .error (.unexpected .operatorInGroup ⟨2, 7⟩) := by
    decide +kernel
  have hpass (p : Position) : grammatical "a\r\n && (1e+ b" ≠ .error ⟨.tooDeep, some p⟩ := by
    rw [herror]
    nofun
  have hnot : ¬∃ d : Derivation Numeral 0, Cut "a\r\n && (1e+ b".toList d.tokens := by
    rintro ⟨d, hcut⟩
    have hitems := d.cut_iff_items_lex.mp hcut
    have hviable : Viable (lex "a\r\n && (1e+ b").items := ⟨d, hitems ▸ List.prefix_rfl⟩
    obtain ⟨r, hr⟩ := viable_iff.mp hviable
    have hstop : (Reading.start.nextAll? (lex "a\r\n && (1e+ b").items).isSome = false := by
      decide +kernel
    rw [hr] at hstop
    cases hstop
  obtain ⟨before, rest, ts, htext, hcut, -, ⟨more, hmore⟩, hnext, -, hfails, hnames, hparse⟩ :=
    refused_at_first_unexpected "a\r\n && (1e+ b" hpass hnot
  rw [parseNames, herror] at hnames
  injection hnames with hnames
  injection hnames with hdue hposition
  injection hdue with hdue
  injection hposition with hposition
  exact ⟨hpass, hnot, before, rest, ts, htext, hcut, hposition.symm, hdue.symm,
    ⟨more, hmore Float fun n _ => rfl⟩, hnext, by rw [← hdue]; rfl, hfails, hparse Float⟩

end DecisionDiagrams
