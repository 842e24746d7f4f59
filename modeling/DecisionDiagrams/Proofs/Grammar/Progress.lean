import DecisionDiagrams.Proofs.Grammar.Language
import DecisionDiagrams.Proofs.Grammar.Signs

/-! Rules and reading side by side: which tokens stand between two places of a text, and how reading
goes on from a place. -/
namespace DecisionDiagrams

def Token.place {α : Type} (t : Located (Token α)) : Token (Located α) :=
  t.item.map (Located.mk t.position)

theorem Token.map_item_place {α : Type} (t : Located (Token α)) :
    (place t).map Located.item = t.item := by
  obtain ⟨p, item⟩ := t
  cases item <;> rfl

theorem Token.name?_place {α : Type} (t : Located (Token α)) : (place t).name? = t.item.name? := by
  obtain ⟨p, item⟩ := t
  cases item <;> rfl

/-- The tokens, with the place of each literal. -/
def Lexed.placed {α : Type} (l : Lexed α) : List (Token (Located α)) := l.tokens.map Token.place

theorem Lexed.map_item_placed {α : Type} (l : Lexed α) :
    l.placed.map (Token.map Located.item) = l.items := by
  rw [placed, items, List.map_map]
  exact List.map_congr_left fun t _ => Token.map_item_place t

theorem lexFrom_eq (done : List (Located (Token Numeral))) (p : Position) : (cs : List Char) →
    lexFrom done p cs = ⟨done.reverse ++ (lexFrom [] p cs).tokens, (lexFrom [] p cs).finish⟩
  | [] => by simp [lexFrom]
  | c :: cs => by
    by_cases hc : isSeparator c = true
    · rw [lexFrom_separator hc, lexFrom_separator hc]
      exact lexFrom_eq done (p.after c) cs
    · have hc := Bool.not_eq_true _ ▸ hc
      rw [lexFrom_scan hc, lexFrom_scan hc, lexFrom_eq, lexFrom_eq [_]]
      simp
termination_by cs => cs.length
decreasing_by
  · simp
  · exact Token.length_scan_lt c cs
  · exact Token.length_scan_lt c cs

namespace State

def lexed (s : State) : Lexed Numeral := lexFrom [] s.position s.rest

structure Reads (s s' : State) (ts : List (Token (Located Numeral))) : Prop where
  text : ∃ w, s.rest = w ++ s'.rest ∧ s'.position = s.position.afterAll w ∧ ts.length ≤ w.length
  lexed : ∃ tokens, s.lexed = ⟨tokens ++ s'.lexed.tokens, s'.lexed.finish⟩ ∧
    tokens.map Token.place = ts

variable {s s' s'' : State} {ts ts' : List (Token (Located Numeral))}

theorem Reads.trans (h : s.Reads s' ts) (h' : s'.Reads s'' ts') : s.Reads s'' (ts ++ ts') := by
  obtain ⟨⟨w, hrest, hposition, hlength⟩, tokens, hlexed, rfl⟩ := h
  obtain ⟨⟨w', hrest', hposition', hlength'⟩, tokens', hlexed', rfl⟩ := h'
  refine ⟨⟨w ++ w', ?_, ?_, ?_⟩, tokens ++ tokens', ?_, by simp⟩
  · rw [hrest, hrest', List.append_assoc]
  · rw [hposition', hposition, Position.afterAll_append]
  · rw [List.length_append, List.length_append]
    exact Nat.add_le_add hlength hlength'
  · rw [hlexed, hlexed', List.append_assoc]

theorem Reads.position_le (h : s.Reads s' ts) : s.position ≤ s'.position := by
  obtain ⟨w, -, hposition, -⟩ := h.text
  exact hposition ▸ s.position.le_afterAll w

theorem Reads.position_lt (h : s.Reads s' ts) (hts : ts ≠ []) : s.position < s'.position := by
  obtain ⟨w, -, hposition, hlength⟩ := h.text
  refine hposition ▸ s.position.lt_afterAll ?_
  rintro rfl
  exact hts (List.eq_nil_of_length_eq_zero (Nat.le_zero.mp hlength))

theorem Reads.length_le (h : s.Reads s' ts) : s'.rest.length + ts.length ≤ s.rest.length := by
  obtain ⟨w, hrest, -, hlength⟩ := h.text
  rw [hrest, List.length_append]
  omega

theorem reads_self (s : State) (a : Attempts) : s.Reads { s with attempts := a } [] :=
  ⟨⟨[], rfl, rfl, Nat.le_refl _⟩, [], rfl, rfl⟩

theorem reads_separators (p : Position) (a a' : Attempts) {w : List Char} (rest : List Char)
    (hw : ∀ c ∈ w, isSeparator c = true) :
    Reads ⟨p, w ++ rest, a⟩ ⟨p.afterAll w, rest, a'⟩ [] := by
  refine ⟨⟨w, rfl, rfl, Nat.zero_le _⟩, [], ?_, rfl⟩
  simp only [State.lexed]
  induction w generalizing p with
  | nil => rfl
  | cons c w ih =>
    obtain ⟨hc, hw⟩ := List.forall_mem_cons.mp hw
    rw [List.cons_append, lexFrom_separator hc]
    exact ih (p.after c) hw

theorem reads_skip (s : State) : s.Reads s.skip [] := by
  obtain ⟨p, cs, a⟩ := s
  have h := reads_separators p a a (w := cs.takeWhile isSeparator) (cs.dropWhile isSeparator)
    fun c => List.mem_takeWhile_imp
  rwa [List.takeWhile_append_dropWhile] at h

theorem reads_token (p : Position) (a a' : Attempts) {c : Char} (hc : isSeparator c = false)
    (cs : List Char) :
    Reads ⟨p, c :: cs, a⟩ ⟨p.afterAll (Token.scan c cs).1.spelling, (Token.scan c cs).2, a'⟩
      [Token.place ⟨p, (Token.scan c cs).1⟩] := by
  refine ⟨⟨(Token.scan c cs).1.spelling, (Token.spelling_append_scan c cs).symm, rfl, ?_⟩,
    [⟨p, (Token.scan c cs).1⟩], ?_, rfl⟩
  · exact List.length_pos_iff.mpr (Token.spelling_scan_ne_nil c cs)
  · simp only [State.lexed]
    rw [lexFrom_scan hc, lexFrom_eq]
    rfl

theorem reads_symbol {t : Symbol} {rest : List Char} (h : t.spelling ++ rest = s.rest)
    (a : Attempts) :
    s.Reads ⟨s.position.afterAll t.spelling, rest, a⟩ [.symbol t] := by
  obtain ⟨p, cs, a'⟩ := s
  obtain ⟨c, cs', hspelling⟩ :=
    List.exists_cons_of_ne_nil (Token.spelling_ne_nil (t := .symbol t) trivial)
  obtain rfl : c :: (cs' ++ rest) = cs := by
    rw [← List.cons_append, ← hspelling]
    exact h
  have hc : isSeparator c = false :=
    Token.IsLexeme.not_isSeparator (t := .symbol t) trivial hspelling
  have hreads := reads_token p a' a hc (cs' ++ rest)
  rw [Token.scan_symbol h] at hreads
  exact hreads

structure Ready (s : State) : Prop where
  fresh : s.attempts.Fresh s.position
  head : ∀ c ∈ s.rest.head?, isSeparator c = false

theorem skip_head (s : State) : ∀ c ∈ s.skip.rest.head?, isSeparator c = false := by
  intro c hc
  have h := List.head?_dropWhile_not isSeparator s.rest
  rw [show (s.rest.dropWhile isSeparator).head? = some c from hc] at h
  simpa using h

theorem skip_of_head (h : ∀ c ∈ s.rest.head?, isSeparator c = false) : s.skip = s := by
  obtain ⟨p, cs, a⟩ := s
  cases cs with
  | nil => rfl
  | cons c cs =>
    have hc : ¬isSeparator c = true := by simp [h c rfl]
    simp [skip, List.takeWhile_cons_of_neg hc, List.dropWhile_cons_of_neg hc]

theorem ready_skip (h : s.attempts.position < s.position) : s.skip.Ready where
  fresh := Attempts.fresh_of_lt (h.trans_le s.reads_skip.position_le)
  head := s.skip_head

end State

/-- The rules that fail where something is due. -/
def Expected.rules : Expected → List Rule
  | expression => [.expr]
  | operand => [.neg, .not, .literal, .variable]
  | operatorInGroup => Rule.infixRules
  | operatorOrEnd => Rule.infixRules ++ [.endOfInput]

theorem Expected.message_rules (due : Expected) (p : Position) :
    (⟨p, due.rules⟩ : Attempts).message = due.message := by
  cases due <;> rfl

namespace Reading

def runAt (r : Reading Numeral) (s : State) : Except SyntaxError (Expr Numeral) :=
  r.run s.lexed.finish s.lexed.tokens

theorem run_append {α : Type} {finish : Position} {r r' : Reading α}
    {tokens : List (Located (Token α))} (h : r.nextAll? (tokens.map Located.item) = some r')
    (later : List (Located (Token α))) :
    r.run finish (tokens ++ later) = r'.run finish later := by
  induction tokens generalizing r with
  | nil => cases h; rfl
  | cons t tokens ih =>
    rw [List.map_cons, nextAll?_cons] at h
    obtain ⟨r₁, hfirst, hrest⟩ := Option.bind_eq_some_iff.mp h
    rw [List.cons_append, run, hfirst]
    exact ih hrest

theorem runAt_eq {r r' : Reading Numeral} {s s' : State} {ts : List (Token (Located Numeral))}
    (h : s.Reads s' ts) (hr : r.nextAll? (ts.map (Token.map Located.item)) = some r') :
    r.runAt s = r'.runAt s' := by
  obtain ⟨-, tokens, hlexed, rfl⟩ := h
  have hitems : tokens.map Located.item =
      (tokens.map Token.place).map (Token.map Located.item) := by
    rw [List.map_map]
    exact List.map_congr_left fun t _ => (Token.map_item_place t).symm
  rw [runAt, hlexed, run_append (hitems ▸ hr)]
  rfl

/-- Reading stops at a token that cannot come next, or at an end that comes too early. -/
theorem runAt_eq_error {r : Reading Numeral} {s : State}
    (hs : ∀ c ∈ s.rest.head?, isSeparator c = false)
    (hnext : ∀ c cs, s.rest = c :: cs → r.next? (Token.scan c cs).1 = none)
    (htree : s.rest = [] → r.tree? = none) :
    r.runAt s = .error (.unexpected r.expected s.position) := by
  obtain ⟨p, cs, a⟩ := s
  cases cs with
  | nil => simp [runAt, State.lexed, lexFrom, run, htree rfl]
  | cons c cs =>
    rw [runAt, State.lexed, lexFrom_scan (hs c rfl), lexFrom_eq]
    simp [run, hnext c cs rfl]

theorem next?_before_scan {c : Char} {cs : List Char} (hname : isNameStart c = false)
    (hliteral : Numeral.scan? (c :: cs) = none) (hopening : ¬['('] <+: c :: cs)
    (hsign : ∀ sign : PrefixSign, ¬sign.symbol.spelling <+: c :: cs)
    (frames : List (Frame Numeral)) : (before frames).next? (Token.scan c cs).1 = none := by
  rw [Token.scan, if_neg (by simp [hname])]
  simp only [hliteral]
  split
  next s rest hs =>
    have hspelling : s.spelling <+: c :: cs := ⟨rest, Symbol.spelling_append_of_scan? hs⟩
    have hne : s ≠ .opening := by
      rintro rfl
      exact hopening hspelling
    have hnone : s.prefixOperator? = none :=
      Option.eq_none_iff_forall_ne_some.mpr fun op hop => hsign ⟨s, op, hop⟩ hspelling
    simp [next?, hne, hnone]
  next => rfl

theorem next?_after_scan {c : Char} {cs : List Char}
    (hsign : ∀ sign : InfixSign, ¬sign.symbol.spelling <+: c :: cs)
    {frames : List (Frame Numeral)} {tree : Expr Numeral}
    (hclosing : [')'] <+: c :: cs → (Frame.fold 0 frames tree).1 = []) :
    (after frames tree).next? (Token.scan c cs).1 = none := by
  have hspelling := Token.spelling_append_scan c cs
  cases ht : (Token.scan c cs).1 with
  | symbol s =>
    rw [ht] at hspelling
    have hprefix : s.spelling <+: c :: cs := ⟨_, hspelling⟩
    have hnone : s.infixOperator? = none :=
      Option.eq_none_iff_forall_ne_some.mpr fun op hop => hsign ⟨s, op, hop⟩ hprefix
    by_cases hs : s = .closing
    · subst hs
      have hfold := hclosing hprefix
      cases hframes : Frame.fold 0 frames tree with
      | mk frames' tree' =>
        rw [hframes] at hfold
        cases hfold
        simp [next?, hframes]
    · simp [next?, hs, hnone]
  | _ => rfl

/-- Behind prefix operators an operand is due. -/
theorem nextAll?_prefixSigns (signs : List PrefixSign) (frames : List (Frame Numeral)) :
    ∃ frames', (before frames).nextAll? ((signs.map PrefixSign.token).map
        (Token.map (Located.item : Located Numeral → Numeral))) = some (before frames') ∧
      (signs = [] → frames' = frames) ∧ (signs ≠ [] → (before frames').expected = .operand) := by
  induction signs generalizing frames with
  | nil => exact ⟨frames, rfl, fun _ => rfl, fun h => absurd rfl h⟩
  | cons sign signs ih =>
    obtain ⟨frames', hread, hnil, hcons⟩ := ih (.awaiting sign.op [] :: frames)
    refine ⟨frames', ?_, nofun, fun _ => ?_⟩
    · rw [List.map_cons, List.map_cons, nextAll?_cons, PrefixSign.token, Token.map,
        Derivation.next?_prefix sign.hs, Option.bind_some, hread]
    · by_cases hsigns : signs = []
      · rw [hnil hsigns]
        rfl
      · exact hcons hsigns

/-- An infix operator goes on with any operand. -/
theorem nextAll?_infixSign (sign : InfixSign) (frames : List (Frame Numeral))
    (tree : Expr Numeral) :
    ∃ frames', (after frames tree).nextAll? ([.symbol sign.symbol].map
        (Token.map (Located.item : Located Numeral → Numeral))) = some (before frames') ∧
      (before frames').expected = .operand := by
  obtain ⟨frames', tree', hfold⟩ :
      ∃ frames' tree', Frame.fold sign.op.precedence frames tree = (frames', tree') := ⟨_, _, rfl⟩
  refine ⟨.awaiting sign.op [tree'] :: frames', ?_, rfl⟩
  rw [List.map_singleton, nextAll?_cons, Token.map, Derivation.next?_infix sign.hs hfold]
  rfl

/-- Folding closes no group. -/
theorem any_isGroup_fold (p : Nat) : (frames : List (Frame Numeral)) → (tree : Expr Numeral) →
    (Frame.fold p frames tree).1.any Frame.isGroup = frames.any Frame.isGroup
  | [], _ => rfl
  | .group :: _, _ => rfl
  | .awaiting op earlier :: frames, tree => by
    by_cases h : p ≤ op.precedence
    · rw [Frame.fold_awaiting h]
      exact any_isGroup_fold p frames _
    · rw [Frame.fold, if_neg h]

/-- Reading a row leads to its tree, up to operators that hold it less tightly. -/
theorem nextAll?_row (row : Row (Operand (Located Numeral))) :
    ∃ tree : Expr Numeral, ∀ frames, (before frames).expected = .expression →
      ∃ frames' tree', (before frames).nextAll? (row.tokens.map (Token.map Located.item)) =
          some (after frames' tree') ∧ Frame.fold 0 frames' tree' = (frames, tree) := by
  obtain ⟨d, htokens⟩ := row.exists_derivation
  refine ⟨(d.map Located.item).tree, fun frames hframes => ?_⟩
  have hawaits : Frame.Awaits 0 frames := by
    match frames with
    | [] => trivial
    | .group :: frames => trivial
    | .awaiting op earlier :: frames => cases hframes
  obtain ⟨frames', tree', hread, hfold⟩ :=
    (d.map Located.item).nextAll?_tokens frames fun _ => hawaits
  rw [d.tokens_map, htokens] at hread
  exact ⟨frames', tree', hread, (hfold 0 le_rfl).trans (hawaits.fold_eq _)⟩

end Reading

end DecisionDiagrams
