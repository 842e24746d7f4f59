import DecisionDiagrams.Proofs.Grammar.Pairs
import DecisionDiagrams.Proofs.Grammar.Progress

/-! What the rules make of a text. They match it as a row of operands and operators, or they fail
furthest where reading it ends. -/
namespace DecisionDiagrams

open Peg Reading

namespace State

variable {s s' : State} {ts : List (Token (Located Numeral))} {a : Attempts}

/-- Reading on from here ends where the furthest rules failed, for what these rules are. -/
def Faults (s : State) (r : Reading Numeral) (a : Attempts) : Prop :=
  ∃ due, a.rules = due.rules ∧ r.runAt s = .error (.unexpected due a.position)

theorem Faults.behind {r r' : Reading Numeral} (h : s'.Faults r' a) (hs : s.Reads s' ts)
    (hr : r.nextAll? (ts.map (Token.map Located.item)) = some r') : s.Faults r a := by
  obtain ⟨due, hrules, herror⟩ := h
  exact ⟨due, hrules, (runAt_eq hs hr).trans herror⟩

structure Ends (s : State) : Prop where
  attempts : s.attempts = ⟨s.skip.position, Rule.infixRules⟩
  sign : ∀ sign : InfixSign, ¬sign.symbol.spelling <+: s.skip.rest

/-- An operator follows, and behind it reading ends where the furthest rules failed. -/
structure Breaks (s : State) : Prop where
  position : s.skip.position < s.attempts.position
  sign : ∃ sign : InfixSign, sign.symbol.spelling <+: s.skip.rest
  faults : ∀ frames tree, s.Faults (after frames tree) s.attempts

inductive ExprEnds (s : State) : Prop where
  | matched (s' : State) (w : List Char) (inner : List Pair)
      (row : Row (Operand (Located Numeral)))
      (hruns : Runs false (.call .expr) s (.matched s' [⟨.expr, s.position, w, inner⟩]))
      (hrow : Pair.row? inner = some row) (hreads : s.Reads s' row.tokens)
      (hends : s'.Ends ∨ s'.Breaks)
  | failed (a : Attempts) (hruns : Runs false (.call .expr) s (.failed a))
      (hle : s.position ≤ a.position)
      (hfaults : ∀ frames, (before frames).expected = .expression → s.Faults (before frames) a)

inductive PrimaryEnds (s : State) : Prop where
  | matched (s' : State) (pair : Pair) (operand : Operand (Located Numeral))
      (hruns : Runs false (.call .primary) s (.matched s' [pair]))
      (hoperand : pair.operand? = some operand) (hrule : pair.rule.prefixSign? = none)
      (hreads : s.Reads s' operand.tokens) (hlt : s'.attempts.position < s'.position)
  /-- Within a group something failed. -/
  | failed (a : Attempts) (hruns : Runs false (.call .primary) s (.failed a))
      (hlt : s.position < a.position) (hfaults : ∀ frames, s.Faults (before frames) a)
  | absent
      (hruns : Runs false (.call .primary) s
        (.failed (s.attempts.fail s.position .literal |>.fail s.position .variable)))
      (herror : ∀ frames, (∀ sign : PrefixSign, ¬sign.symbol.spelling <+: s.rest) →
        (before frames).runAt s = .error (.unexpected (before frames).expected s.position))

section Primary

variable {p : Position} {c : Char} {cs : List Char}

theorem literal_ends {n : Numeral} {rest : List Char} (hc : isSeparator c = false)
    (hname : isNameStart c = false) (h : Numeral.scan? (c :: cs) = some (n, rest))
    (ha : a.position ≤ p) : PrimaryEnds ⟨p, c :: cs, a⟩ := by
  have hspelling : n.spelling ++ rest = c :: cs := Numeral.spelling_append_of_scan? h
  have hlexeme := Numeral.isLexeme_of_scan? h
  have hruns : Runs false (.call .literal) ⟨p, c :: cs, a⟩
      (.matched ⟨p.afterAll n.spelling, rest, a⟩ [⟨.literal, p, n.spelling, []⟩]) :=
    Runs.call_pair rfl hspelling (Runs.literal h p a)
  have hreads := reads_token p a a hc cs
  rw [Token.scan_literal hname h] at hreads
  refine .matched _ _ (.literal ⟨p, n⟩) (Runs.call_silent rfl (.alt_first hruns)) ?_ rfl hreads ?_
  · simp [Pair.operand?, hlexeme.scan?_spelling]
  · exact ha.trans_lt (hreads.position_lt (List.cons_ne_nil _ _))

theorem name_ends (hc : isSeparator c = false) (hname : isNameStart c = true)
    (ha : a.position ≤ p) : PrimaryEnds ⟨p, c :: cs, a⟩ := by
  have hnone : Numeral.scan? (c :: cs) = none := by
    cases h : Numeral.scan? (c :: cs) with
    | none => rfl
    | some found =>
      obtain ⟨n', rest', -, hscan, -⟩ := Token.scan_of_numeral (Numeral.isLexeme_of_scan? h)
        (Numeral.spelling_append_of_scan? h)
      cases (Token.scan_name hname).symm.trans hscan
  have hfirst := Runs.call_fail (r := .literal) rfl (Runs.literal_failed (p := p) (a := a) hnone)
  have hruns : Runs false (.call .variable) ⟨p, c :: cs, a.fail p .literal⟩
      (.matched ⟨p.afterAll (c :: cs.takeWhile isNameChar), cs.dropWhile isNameChar,
        a.fail p .literal⟩ [⟨.variable, p, c :: cs.takeWhile isNameChar, []⟩]) :=
    Runs.call_pair rfl (congrArg (c :: ·) List.takeWhile_append_dropWhile)
      (Runs.name hname cs p _)
  have hreads := reads_token p a (a.fail p .literal) hc cs
  rw [Token.scan_name hname] at hreads
  refine .matched _ _ (.name _) (Runs.call_silent rfl (.alt_second hfirst (.alt_first hruns))) rfl
    rfl hreads ?_
  exact (Attempts.position_fail_le ha _).trans_lt (hreads.position_lt (List.cons_ne_nil _ _))

/-- A group fails behind its expression unless a parenthesis closes it. -/
theorem Ends.faults_group (h : s.Ends) (hclosing : ¬[')'] <+: s.skip.rest)
    {frames frames' : List (Frame Numeral)} {tree tree' : Expr Numeral}
    (hfold : Frame.fold 0 frames' tree' = (.group :: frames, tree)) :
    s.Faults (after frames' tree') s.attempts := by
  have hany : frames'.any Frame.isGroup = true := by
    rw [← any_isGroup_fold 0 frames' tree', hfold]
    rfl
  have herror : (after frames' tree').runAt s.skip =
      .error (.unexpected (after frames' tree').expected s.skip.position) := by
    refine runAt_eq_error s.skip_head (fun c cs hcs => ?_) fun _ => by simp [tree?, hfold]
    exact next?_after_scan (fun sign => hcs ▸ h.sign sign) fun hc => absurd (hcs ▸ hc) hclosing
  refine ⟨.operatorInGroup, by rw [h.attempts]; rfl, ?_⟩
  rw [runAt_eq s.reads_skip rfl, herror, h.attempts, expected, if_pos hany]

theorem faults_unclosed (h : s.Ends ∨ s.Breaks) (hclosing : ¬[')'] <+: s.skip.rest)
    {frames frames' : List (Frame Numeral)} {tree tree' : Expr Numeral}
    (hfold : Frame.fold 0 frames' tree' = (.group :: frames, tree)) :
    s.Faults (after frames' tree') s.attempts := by
  rcases h with hend | hbreaks
  · exact hend.faults_group hclosing hfold
  · exact hbreaks.faults frames' tree'

theorem skip_position_le (h : s.Ends ∨ s.Breaks) : s.skip.position ≤ s.attempts.position := by
  rcases h with hend | hbreaks
  · exact (congrArg Attempts.position hend.attempts).ge
  · exact hbreaks.position.le

theorem Breaks.not_closing (h : s.Breaks) : ¬[')'] <+: s.skip.rest := by
  intro hclosing
  obtain ⟨sign, rest, hrest⟩ := h.sign
  have hsymbol : Symbol.closing = sign.symbol := Symbol.eq_of_isPrefix hrest hclosing
  have hnone := sign.hs
  rw [← hsymbol] at hnone
  cases hnone

theorem group_ends (ha : a.position ≤ p)
    (hexpr : ∀ u : State, u.rest.length ≤ cs.length → u.Ready → u.ExprEnds) :
    (∃ s' pair row, Runs false group ⟨p, '(' :: cs, a⟩ (.matched s' [pair]) ∧
      pair.operand? = some (.group row) ∧ pair.rule = .expr ∧
      Reads ⟨p, '(' :: cs, a⟩ s' (Operand.group row).tokens ∧
      s'.attempts.position < s'.position) ∨
    ∃ a', Runs false group ⟨p, '(' :: cs, a⟩ (.failed a') ∧ p < a'.position ∧
      ∀ frames, Faults ⟨p, '(' :: cs, a⟩ (before frames) a' := by
  let u : State := ⟨p.after '(', cs, a⟩
  have hword : Runs false (word ['(']) ⟨p, '(' :: cs, a⟩ (.matched u []) := Runs.word rfl p a
  have hparen : Reads ⟨p, '(' :: cs, a⟩ u [.symbol .opening] :=
    reads_symbol (s := ⟨p, '(' :: cs, a⟩) (t := .opening) rfl a
  have hopening : Reads ⟨p, '(' :: cs, a⟩ u.skip [.symbol .opening] := hparen.trans u.reads_skip
  have hready : u.skip.Ready := ready_skip (ha.trans_lt (p.lt_after '('))
  have hfaults (frames : List (Frame Numeral)) {a' : Attempts}
      (h : u.skip.Faults (before (.group :: frames)) a') :
      Faults ⟨p, '(' :: cs, a⟩ (before frames) a' := h.behind hopening rfl
  have hplace : p < u.skip.position := hopening.position_lt (List.cons_ne_nil _ _)
  obtain ⟨s, w, inner, row, hruns, hrow, hreads, hends⟩ | ⟨a', hruns, hle, hfails⟩ :=
    hexpr u.skip (Nat.le_of_succ_le_succ hopening.length_le) hready
  · have hinner : u.skip.Reads s.skip row.tokens := by
      simpa using hreads.trans s.reads_skip
    by_cases hclosing : [')'] <+: s.skip.rest
    · have hend := hends.resolve_right fun hbreaks => hbreaks.not_closing hclosing
      obtain ⟨rest, hrest⟩ := hclosing
      let s' : State := ⟨s.skip.position.after ')', rest, s.skip.attempts⟩
      have hlast : s.skip.Reads s' [.symbol .closing] :=
        reads_symbol (s := s.skip) (t := .closing) hrest s.skip.attempts
      have hclosed : Runs false (word [')']) s.skip (.matched s' []) :=
        Runs.word hrest s.skip.position s.skip.attempts
      refine .inl ⟨s', _, row, .seq hword (.seq hruns hclosed), ?_, rfl, ?_, ?_⟩
      · simp [Pair.operand?, hrow]
      · rw [Operand.tokens]
        exact hopening.trans (hinner.trans hlast)
      · exact (congrArg Attempts.position hend.attempts).trans_lt (Position.lt_after _ _)
    · refine .inr ⟨s.attempts, .seq_second_failed hword (.seq_second_failed hruns
        (Runs.word_failed hclosing)), ?_, fun frames => ?_⟩
      · exact hplace.trans_le (hinner.position_le.trans (skip_position_le hends))
      · obtain ⟨tree, hread⟩ := nextAll?_row row
        obtain ⟨frames', tree', hread, hfold⟩ := hread (.group :: frames) rfl
        exact hfaults frames ((faults_unclosed hends hclosing hfold).behind hreads hread)
  · refine .inr ⟨a', .seq_second_failed hword (.seq_first_failed hruns), hplace.trans_le hle, ?_⟩
    exact fun frames => hfaults frames (hfails _ rfl)

theorem primary_ends {n : Nat} (hexpr : ∀ u : State, u.rest.length < n → u.Ready → u.ExprEnds)
    (s : State) (hn : s.rest.length ≤ n) (hs : ∀ c ∈ s.rest.head?, isSeparator c = false)
    (ha : s.attempts.position ≤ s.position) : s.PrimaryEnds := by
  obtain ⟨p, cs, a⟩ := s
  have hfails (hliteral : Numeral.scan? cs = none)
      (hname : ∀ c ∈ cs.head?, isNameStart c = false) {o : Outcome}
      (h : Runs false group ⟨p, cs, (a.fail p .literal).fail p .variable⟩ o) :
      Runs false (.call .primary) ⟨p, cs, a⟩ o :=
    Runs.call_silent rfl (.alt_second (Runs.call_fail rfl (Runs.literal_failed hliteral))
      (.alt_second (Runs.call_fail rfl (Runs.name_failed hname)) h))
  cases cs with
  | nil =>
    have hgroup := hfails rfl nofun (.seq_first_failed (Runs.word_failed (by simp)))
    exact .absent hgroup fun frames _ => runAt_eq_error nofun nofun fun _ => rfl
  | cons c cs =>
    have hc := hs c rfl
    by_cases hname : isNameStart c = true
    · exact name_ends hc hname ha
    have hname := Bool.not_eq_true _ ▸ hname
    cases hliteral : Numeral.scan? (c :: cs) with
    | some found => exact literal_ends hc hname hliteral ha
    | none =>
      have hname' : ∀ c' ∈ (c :: cs).head?, isNameStart c' = false := by
        rintro _ ⟨⟩
        exact hname
      by_cases hopening : c = '('
      · subst hopening
        have ha' := Attempts.position_fail_le (Attempts.position_fail_le ha .literal) .variable
        obtain ⟨s', pair, row, hruns, hoperand, hrule, hreads, hlt⟩ | ⟨a', hruns, hlt, hfaults⟩ :=
          group_ends ha' fun u hu => hexpr u (hu.trans_lt (Nat.lt_of_succ_le hn))
        · exact .matched s' pair _ (hfails hliteral hname' hruns) hoperand (hrule ▸ rfl)
            ⟨hreads.text, hreads.lexed⟩ hlt
        · exact .failed a' (hfails hliteral hname' hruns) hlt hfaults
      · have hword : ¬['('] <+: c :: cs := fun h =>
          hopening (List.cons_prefix_cons.mp h).1.symm
        refine .absent (hfails hliteral hname' (.seq_first_failed (Runs.word_failed hword))) ?_
        intro frames hsigns
        refine runAt_eq_error hs ?_ nofun
        rintro _ _ ⟨⟩
        exact next?_before_scan hname hliteral hword hsigns frames

end Primary

section Operand

/-- How prefix operators are matched: all of them, and none follows. -/
theorem prefixSigns_run (again : Bool) (s : State) (hskip : s.skipIf again = s.skip)
    (hready : s.skip.Ready) :
    ∃ s' pairs signs, Runs false (.rounds again (.call .prefixSign)) s (.matched s' pairs) ∧
      (∀ tail row, Pair.row? tail = some row →
        Pair.row? (pairs ++ tail) = some { row with signs := signs ++ row.signs }) ∧
      s.Reads s' (signs.map PrefixSign.token) ∧
      (signs = [] → s'.skip.position = s.skip.position) ∧
      s'.attempts = ⟨s'.skip.position, [.neg, .not]⟩ ∧
      ∀ sign : PrefixSign, ¬sign.symbol.spelling <+: s'.skip.rest := by
  induction hn : s.rest.length using Nat.strong_induction_on generalizing again s with | _ n ih =>
  have hskip' : s.skipIf (again && !false) = s.skip := by simpa using hskip
  by_cases hsign : ∃ sign : PrefixSign, sign.symbol.spelling <+: s.skip.rest
  · obtain ⟨sign, rest, hrest⟩ := hsign
    obtain ⟨r, a', hr, hle, hruns⟩ := Runs.prefixSign hrest hready.fresh.le
    let s₁ : State := ⟨s.skip.position.afterAll sign.symbol.spelling, rest, a'⟩
    have hreads : s.Reads s₁ [.symbol sign.symbol] := s.reads_skip.trans (reads_symbol hrest a')
    have hlt : s₁.rest.length < n := hn ▸ Nat.lt_of_succ_le hreads.length_le
    have hready₁ : s₁.skip.Ready :=
      ready_skip (hle.trans_lt ((reads_symbol hrest a').position_lt (List.cons_ne_nil _ _)))
    obtain ⟨s', pairs, signs, hmore, hrow, hreads', -, hattempts, hnone⟩ :=
      ih _ hlt true s₁ rfl hready₁ rfl
    refine ⟨s', _, sign :: signs, .rounds_next (by rwa [hskip']) hmore, fun tail row htail => ?_,
      hreads.trans hreads', nofun, hattempts, hnone⟩
    simp [Pair.row?, hr, hrow tail row htail]
  · have hnone : ∀ sign : PrefixSign, ¬sign.symbol.spelling <+: s.skip.rest := not_exists.mp hsign
    have hfailed := Runs.prefixSign_failed (p := s.skip.position) hnone s.skip.attempts
    rw [hready.fresh.failAll] at hfailed
    exact ⟨{ s with attempts := ⟨s.skip.position, [.neg, .not]⟩ }, [], [],
      .rounds_end (by rwa [hskip']), fun tail row htail => htail, s.reads_self _, fun _ => rfl,
      rfl, hnone⟩

inductive OperandEnds (s : State) : Prop where
  | matched (s' : State) (pairs : List Pair) (signs : List PrefixSign)
      (first : Operand (Located Numeral)) (hruns : Runs false operand s (.matched s' pairs))
      (hrow : ∀ tail links, Pair.links? tail = some links →
        Pair.row? (pairs ++ tail) = some ⟨signs, first, links⟩)
      (hreads : s.Reads s' (signs.map PrefixSign.token ++ first.tokens))
      (hlt : s'.attempts.position < s'.position)
  /-- Behind a prefix operator or within a group something failed. -/
  | failed (a : Attempts) (hruns : Runs false operand s (.failed a))
      (hlt : s.position < a.position) (hfaults : ∀ frames, s.Faults (before frames) a)
  | absent (hruns : Runs false operand s (.failed ⟨s.position, [.neg, .not, .literal, .variable]⟩))
      (herror : ∀ frames,
        (before frames).runAt s = .error (.unexpected (before frames).expected s.position))

theorem operand_ends {n : Nat} (hexpr : ∀ u : State, u.rest.length < n → u.Ready → u.ExprEnds)
    (s : State) (hn : s.rest.length ≤ n) (hready : s.Ready) : s.OperandEnds := by
  have hskip : s.skip = s := skip_of_head hready.head
  obtain ⟨s₁, pairs, signs, hruns, hrow, hreads, hplace, hattempts, hnone⟩ :=
    prefixSigns_run false s hskip.symm (hskip.symm ▸ hready)
  have hreads' : s.Reads s₁.skip (signs.map PrefixSign.token) := by
    simpa using hreads.trans s₁.reads_skip
  have ha : s₁.skip.attempts = ⟨s₁.skip.position, [.neg, .not]⟩ := hattempts
  have hn' : s₁.skip.rest.length ≤ n := (Nat.le_of_add_right_le hreads'.length_le).trans hn
  obtain ⟨s', pair, first, hfirst, hoperand, hrule, hreads₁, hlt⟩ | ⟨a, hfails, hlt, hfaults⟩ |
      ⟨hfails, herror⟩ :=
    primary_ends hexpr s₁.skip hn' s₁.skip_head (congrArg Attempts.position ha).le
  · refine .matched s' _ signs first (.seq hruns hfirst) (fun tail links htail => ?_)
      (hreads'.trans hreads₁) hlt
    obtain ⟨r, p, text, inner⟩ := pair
    have hlast : Pair.row? (⟨r, p, text, inner⟩ :: tail) = some ⟨[], first, links⟩ := by
      simp [Pair.row?, show r.prefixSign? = none from hrule, hoperand, htail]
    simpa using hrow _ _ hlast
  · refine .failed a (.seq_second_failed hruns hfails) (hreads'.position_le.trans_lt hlt) ?_
    intro frames
    obtain ⟨frames', hread, -⟩ := nextAll?_prefixSigns signs frames
    exact (hfaults frames').behind hreads' hread
  · rw [ha, Attempts.fail_self, Attempts.fail_self] at hfails
    have hfailed : Runs false operand s _ := .seq_second_failed hruns hfails
    by_cases hsigns : signs = []
    · subst hsigns
      have hposition : s₁.skip.position = s.position :=
        (hplace rfl).trans (congrArg State.position hskip)
      rw [hposition] at hfailed
      refine .absent hfailed fun frames => ?_
      rw [runAt_eq hreads' rfl, herror frames hnone, hposition]
    · refine .failed _ hfailed (hreads'.position_lt (by simpa using hsigns)) fun frames => ?_
      obtain ⟨frames', hread, -, hdue⟩ := nextAll?_prefixSigns signs frames
      refine Faults.behind ⟨.operand, rfl, ?_⟩ hreads' hread
      rw [herror frames' hnone, hdue hsigns]

/-- Where the operand behind an operator fails, the operator is given back, and reading ends behind
it. -/
theorem rounds_break (again : Bool) (hskip : s.skipIf again = s.skip) {sign : InfixSign}
    {rest : List Char} (hrest : sign.symbol.spelling ++ rest = s.skip.rest)
    (hsymbol : s.skip.Reads s' [.symbol sign.symbol]) {pairs : List Pair}
    (hruns : Runs false (.call .infixSign) s.skip (.matched s' pairs))
    (hfails : Runs false operand s'.skip (.failed a)) (hfar : s'.skip.position ≤ a.position)
    (hfaults : ∀ frames, (before frames).expected = .operand → s'.skip.Faults (before frames) a) :
    Runs false (.rounds again (.seq (.call .infixSign) operand)) s
      (.matched { s with attempts := a } []) ∧ Breaks { s with attempts := a } := by
  have hskip' : s.skipIf (again && !false) = s.skip := by simpa using hskip
  have hlink : Runs false (.seq (.call .infixSign) operand) s.skip (.failed a) :=
    .seq_second_failed hruns hfails
  refine ⟨.rounds_end (by rwa [hskip']), ?_, ⟨sign, rest, hrest⟩, fun frames tree => ?_⟩
  · exact (hsymbol.position_lt (List.cons_ne_nil _ _)).trans_le
      (s'.reads_skip.position_le.trans hfar)
  · obtain ⟨frames', hread, hdue⟩ := nextAll?_infixSign sign frames tree
    have hreads : s.Reads s'.skip [.symbol sign.symbol] := by
      simpa using s.reads_skip.trans (hsymbol.trans s'.reads_skip)
    exact (hfaults frames' hdue).behind ⟨hreads.text, hreads.lexed⟩ hread

/-- How infix operators with their operands are matched: up to a place where none follows, or one
behind which something fails. -/
theorem links_run {n : Nat} (again : Bool)
    (hexpr : ∀ u : State, u.rest.length < n → u.Ready → u.ExprEnds) (s : State)
    (hn : s.rest.length ≤ n) (hskip : s.skipIf again = s.skip) (hready : s.skip.Ready) :
    ∃ s' pairs links, Runs false (.rounds again (.seq (.call .infixSign) operand)) s
        (.matched s' pairs) ∧
      Pair.links? pairs = some links ∧ s.Reads s' (Row.linkTokens links) ∧
      (s'.Ends ∨ s'.Breaks) := by
  induction hlength : s.rest.length using Nat.strong_induction_on generalizing again s
    with | _ k ih =>
  have hskip' : s.skipIf (again && !false) = s.skip := by simpa using hskip
  by_cases hsign : ∃ sign : InfixSign, sign.symbol.spelling <+: s.skip.rest
  · obtain ⟨sign, rest, hrest⟩ := hsign
    obtain ⟨r, a', hr, hle, hruns⟩ := Runs.infixSign hrest hready.fresh.le
    let s₁ : State := ⟨s.skip.position.afterAll sign.symbol.spelling, rest, a'⟩
    have hsymbol : s.skip.Reads s₁ [.symbol sign.symbol] := reads_symbol hrest a'
    have hreads : s.Reads s₁.skip [.symbol sign.symbol] := by
      simpa using s.reads_skip.trans (hsymbol.trans s₁.reads_skip)
    have hready₁ : s₁.skip.Ready :=
      ready_skip (hle.trans_lt (hsymbol.position_lt (List.cons_ne_nil _ _)))
    have hlt : s₁.skip.rest.length < s.rest.length := Nat.lt_of_succ_le hreads.length_le
    have hbreaks {a : Attempts} := rounds_break (a := a) again hskip hrest hsymbol hruns
    obtain ⟨s₂, pairs, signs, first, hoperand, hrow, hreads₂, hlt₂⟩ |
        ⟨a, hfails, hfar, hfaults⟩ | ⟨hfails, herror⟩ :=
      operand_ends hexpr s₁.skip (hlt.le.trans hn) hready₁
    · have hshorter : s₂.rest.length < k :=
        hlength ▸ (Nat.le_of_add_right_le hreads₂.length_le).trans_lt hlt
      obtain ⟨s', pairs', links, hmore, hlinks, hreads', hends⟩ :=
        ih _ hshorter true s₂ (hshorter.le.trans (hlength ▸ hn)) rfl
          (ready_skip hlt₂) rfl
      have hlink : Runs false (.seq (.call .infixSign) operand) s.skip _ := .seq hruns hoperand
      refine ⟨s', _, ⟨sign, signs, first⟩ :: links, .rounds_next (by rwa [hskip']) hmore, ?_, ?_,
        hends⟩
      · simp [Pair.links?, hr, hrow _ _ hlinks]
      · simpa [Row.linkTokens] using hreads.trans (hreads₂.trans hreads')
    · obtain ⟨hrounds, hends⟩ := hbreaks hfails hfar.le fun frames _ => hfaults frames
      exact ⟨_, [], [], hrounds, rfl, s.reads_self a, .inr hends⟩
    · obtain ⟨hrounds, hends⟩ := hbreaks hfails le_rfl fun frames hdue =>
        ⟨.operand, rfl, by rw [herror, hdue]⟩
      exact ⟨_, [], [], hrounds, rfl, s.reads_self _, .inr hends⟩
  · have hnone : ∀ sign : InfixSign, ¬sign.symbol.spelling <+: s.skip.rest := not_exists.mp hsign
    have hfailed := Runs.infixSign_failed (p := s.skip.position) hnone s.skip.attempts
    rw [Rule.infixRules, hready.fresh.failAll] at hfailed
    have hlink : Runs false (.seq (.call .infixSign) operand) s.skip _ :=
      .seq_first_failed hfailed
    exact ⟨{ s with attempts := ⟨s.skip.position, Rule.infixRules⟩ }, [], [],
      .rounds_end (by rwa [hskip']), rfl, s.reads_self _, .inl ⟨rfl, hnone⟩⟩

/-- The rule for expressions ends on every text. -/
theorem expr_ends (n : Nat) (s : State) (hn : s.rest.length < n) (hready : s.Ready) :
    s.ExprEnds := by
  -- A group holds an expression again, in what is left of the text behind its parenthesis.
  induction n generalizing s with
  | zero => exact absurd hn (Nat.not_lt_zero _)
  | succ n ih =>
    have hle : s.rest.length ≤ n := Nat.le_of_lt_succ hn
    obtain ⟨s₁, pairs, signs, first, hoperand, hrow, hreads, hlt⟩ |
        ⟨a, hfails, hfar, hfaults⟩ | ⟨hfails, herror⟩ := operand_ends ih s hle hready
    · have hreads' := hreads.trans s₁.reads_skip
      have hskip : s₁.skip.skip = s₁.skip := skip_of_head s₁.skip_head
      obtain ⟨s', pairs', links, hlinks, hpairs, hlast, hends⟩ :=
        links_run false ih s₁.skip ((Nat.le_of_add_right_le hreads'.length_le).trans hle)
          hskip.symm (hskip.symm ▸ ready_skip hlt)
      have hwhole : s.Reads s' (Row.tokens ⟨signs, first, links⟩) := by
        simpa [Row.tokens] using hreads'.trans hlast
      obtain ⟨w, hw, -, -⟩ := hwhole.text
      exact .matched s' w _ _ (Runs.call_pair rfl hw.symm (.seq hoperand hlinks))
        (hrow _ _ hpairs) hwhole hends
    · have hcall : Runs false (.call .expr) s _ := .call_failed (.seq_first_failed hfails)
      rw [Rule.attempts, if_neg (by decide), Attempts.record_of_lt _ hfar] at hcall
      exact .failed a hcall hfar.le fun frames _ => hfaults frames
    · have hcall : Runs false (.call .expr) s _ := .call_failed (.seq_first_failed hfails)
      rw [Rule.attempts, if_neg (by decide), hready.fresh.record (by decide)] at hcall
      exact .failed _ hcall le_rfl fun frames hdue => ⟨.expression, rfl, by rw [herror, hdue]⟩

end Operand

end State

/-- The end of the text fails behind an expression that ends too early. -/
theorem State.Ends.faults_end {s : State} (h : s.Ends) (hrest : s.skip.rest ≠ [])
    {frames : List (Frame Numeral)} {tree tree' : Expr Numeral}
    (hfold : Frame.fold 0 frames tree' = ([], tree)) :
    s.Faults (after frames tree') (s.attempts.fail s.skip.position .endOfInput) := by
  have hany : frames.any Frame.isGroup = false := by
    rw [← any_isGroup_fold 0 frames tree', hfold]
    rfl
  have herror : (after frames tree').runAt s.skip =
      .error (.unexpected (after frames tree').expected s.skip.position) := by
    refine runAt_eq_error s.skip_head (fun c cs hcs => ?_) fun hnil => absurd hnil hrest
    exact next?_after_scan (fun sign => hcs ▸ h.sign sign) fun _ => by rw [hfold]
  rw [h.attempts, Attempts.fail_self]
  refine ⟨.operatorOrEnd, rfl, ?_⟩
  rw [runAt_eq s.reads_skip rfl, herror, expected, if_neg (by simp [hany])]

/-- The rules start on a text behind the separators in front of it. -/
theorem State.start_ready (text : String) : (State.start text).skip.Ready where
  fresh := ⟨(State.start text).reads_skip.position_le, ite_self []⟩
  head := (State.start text).skip_head

theorem recognises_of_runs {text : String} {o : Outcome}
    (h : Runs false (.seq (.call .expr) (.call .endOfInput)) (State.start text).skip o) :
    Recognises text o := by
  have hstart : (Terminal.start).consumed? (State.start text) = some [] := rfl
  have hfirst : Runs false (.terminal .start) (State.start text) (.matched (State.start text) []) :=
    .terminal hstart
  refine Runs.call_silent rfl ?_
  cases o with
  | matched s pairs => exact .seq hfirst h
  | failed a => exact .seq_second_failed hfirst h

/-- Every text is matched as a row, or refused where reading it ends and for what is due there. -/
theorem recognises (text : String) :
    (∃ s p w inner q row,
      Recognises text (.matched s [⟨.expr, p, w, inner⟩, ⟨.endOfInput, q, [], []⟩]) ∧
        Pair.row? inner = some row ∧ row.tokens = (lex text).placed) ∨
    ∃ a due, Recognises text (.failed a) ∧ a.rules = due.rules ∧
      (lex text).tree = .error (.unexpected due a.position) := by
  let s₀ : State := .start text
  obtain ⟨s, w, inner, row, hruns, hrow, hreads, hends⟩ | ⟨a, hfails, -, hfaults⟩ :=
    s₀.skip.expr_ends _ (Nat.lt_succ_self _) (State.start_ready text)
  · have hreads' : s₀.Reads s.skip row.tokens := by
      simpa using s₀.reads_skip.trans (hreads.trans s.reads_skip)
    by_cases hrest : s.skip.rest = []
    · have hfinish : Terminal.finish.consumed? s.skip = some [] := if_pos hrest
      have hend : Runs false (.call .endOfInput) s.skip
          (.matched s.skip [⟨.endOfInput, s.skip.position, [], []⟩]) :=
        Runs.call_pair (w := []) rfl rfl (.terminal hfinish)
      refine .inl ⟨_, _, w, inner, _, row, recognises_of_runs (.seq hruns hend), hrow, ?_⟩
      obtain ⟨tokens, hlexed, htokens⟩ := hreads'.lexed
      have hnil : s.skip.lexed.tokens = [] := by rw [State.lexed, hrest, lexFrom]; rfl
      rw [← htokens, Lexed.placed, show lex text = s₀.lexed from rfl, hlexed, hnil, List.append_nil]
    · have hend : Runs false (.call .endOfInput) s.skip
          (.failed (s.attempts.fail s.skip.position .endOfInput)) := 
        Runs.call_fail rfl (.terminal_failed (if_neg hrest))
      have hfaults : s₀.Faults start (s.attempts.fail s.skip.position .endOfInput) := by
        obtain ⟨tree, hread⟩ := nextAll?_row row
        obtain ⟨frames, tree', hread, hfold⟩ := hread [] rfl
        refine State.Faults.behind ?_ (s₀.reads_skip.trans hreads) hread
        rcases hends with hend | hbreaks
        · exact hend.faults_end hrest hfold
        · rw [Attempts.fail_of_lt hbreaks.position]
          exact hbreaks.faults frames tree'
      obtain ⟨due, hrules, herror⟩ := hfaults
      exact .inr ⟨_, due, recognises_of_runs (.seq_second_failed hruns hend), hrules, herror⟩
  · obtain ⟨due, hrules, herror⟩ := (hfaults [] rfl).behind s₀.reads_skip rfl
    exact .inr ⟨a, due, recognises_of_runs (.seq_first_failed hfails), hrules, herror⟩

/-- A row of the tokens of a text is a sentence. -/
theorem exists_cut_of_row {text : String} {row : Row (Operand (Located Numeral))}
    (h : row.tokens = (lex text).placed) :
    ∃ d : Derivation Numeral 0, Cut text.toList d.tokens := by
  obtain ⟨d, htokens⟩ := row.exists_derivation
  refine ⟨d.map Located.item, (d.map Located.item).cut_iff_items_lex.mpr ?_⟩
  rw [d.tokens_map, htokens, h, Lexed.map_item_placed]

theorem exists_row_of_cut {text : String} {d : Derivation Numeral 0}
    (h : Cut text.toList d.tokens) : ∃ s p w inner q row,
      Recognises text (.matched s [⟨.expr, p, w, inner⟩, ⟨.endOfInput, q, [], []⟩]) ∧
        Pair.row? inner = some row ∧ row.tokens = (lex text).placed := by
  refine (recognises text).resolve_right ?_
  rintro ⟨a, due, -, -, herror⟩
  cases herror.symm.trans
    (Lexed.tree_eq_ok_iff.mpr ⟨d, (d.cut_iff_items_lex.mp h).symm, rfl⟩)

/-- The rules match exactly the sentences. -/
theorem exists_matched_iff {text : String} :
    (∃ s pairs, Recognises text (.matched s pairs)) ↔
      ∃ d : Derivation Numeral 0, Cut text.toList d.tokens := by
  constructor
  · rintro ⟨s, pairs, hmatched⟩
    obtain ⟨_, _, _, _, _, row, -, -, hrow⟩ | ⟨a, _, hfailed, -, -⟩ := recognises text
    · exact exists_cut_of_row hrow
    · cases hmatched.unique hfailed
  · rintro ⟨d, hcut⟩
    obtain ⟨s, _, _, _, _, _, hmatched, -, -⟩ := exists_row_of_cut hcut
    exact ⟨s, _, hmatched⟩

end DecisionDiagrams
