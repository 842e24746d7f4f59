import DecisionDiagrams.Proofs.Grammar.Derivation
import DecisionDiagrams.Proofs.Grammar.Token

/-! The pass over the tokens accepts exactly the sequences that have a derivation, and gives the
tree of the derivation. -/
namespace DecisionDiagrams

variable {α : Type}

namespace Frame

/-- The innermost frame takes a whole phrase of category `p` as its operand. -/
def Awaits (p : Nat) : List (Frame α) → Prop
  | .awaiting op _ :: _ => op.precedence < p
  | _ => True

theorem Awaits.mono {p p' : Nat} (h : p ≤ p') {frames : List (Frame α)}
    (hframes : Awaits p frames) : Awaits p' frames := by
  match frames with
  | [] => trivial
  | .group :: _ => trivial
  | .awaiting op earlier :: _ => exact hframes.trans_le h

theorem Awaits.fold_eq {p : Nat} {frames : List (Frame α)} (h : Awaits p frames) (tree : Expr α) :
    fold p frames tree = (frames, tree) := by
  match frames with
  | [] => rfl
  | .group :: _ => rfl
  | .awaiting op earlier :: frames => rw [fold, if_neg h.not_ge]

theorem fold_awaiting {p : Nat} {op : Operator} (h : p ≤ op.precedence) (earlier : List (Expr α))
    (frames : List (Frame α)) (tree : Expr α) :
    fold p (.awaiting op earlier :: frames) tree =
      fold p frames (.apply op (earlier ++ [tree])) := by
  rw [fold, if_pos h]

end Frame

namespace Reading

def nextAll? (r : Reading α) (ts : List (Token α)) : Option (Reading α) := ts.foldlM next? r

theorem nextAll?_cons (r : Reading α) (t : Token α) (ts : List (Token α)) :
    r.nextAll? (t :: ts) = (r.next? t).bind fun r => r.nextAll? ts := rfl

theorem nextAll?_append (r : Reading α) (ts ts' : List (Token α)) :
    r.nextAll? (ts ++ ts') = (r.nextAll? ts).bind fun r => r.nextAll? ts' :=
  List.foldlM_append

theorem run_eq_ok_iff {finish : Position} {r : Reading α} {tokens : List (Located (Token α))}
    {e : Expr α} :
    r.run finish tokens = .ok e ↔ (r.nextAll? (tokens.map Located.item)).bind tree? = some e := by
  induction tokens generalizing r with
  | nil =>
    rw [run]
    show _ ↔ r.tree? = some e
    cases r.tree? with
    | none => simp
    | some e' => simp
  | cons t tokens ih =>
    rw [run, List.map_cons, nextAll?_cons]
    cases hnext : r.next? t.item with
    | none => simp
    | some r' => exact ih

/-- What is refused is the first token that cannot continue, or the end of the text. -/
theorem of_run_eq_error {finish : Position} {r : Reading α} {tokens : List (Located (Token α))}
    {error : SyntaxError} (h : r.run finish tokens = .error error) :
    ∃ done rest r', tokens = done ++ rest ∧ r.nextAll? (done.map Located.item) = some r' ∧
      ((∃ t more, rest = t :: more ∧ r'.next? t.item = none ∧
          error = .unexpected r'.expected t.position) ∨
        (rest = [] ∧ r'.tree? = none ∧ error = .unexpected r'.expected finish)) := by
  induction tokens generalizing r with
  | nil =>
    refine ⟨[], [], r, rfl, rfl, .inr ⟨rfl, ?_⟩⟩
    rw [run] at h
    split at h
    next => cases h
    next htree => cases h; exact ⟨htree, rfl⟩
  | cons t tokens ih =>
    rw [run] at h
    split at h
    next r₁ hfirst =>
      obtain ⟨done, rest, r', rfl, hread, hrefused⟩ := ih h
      refine ⟨t :: done, rest, r', rfl, ?_, hrefused⟩
      rw [List.map_cons, nextAll?_cons, hfirst, Option.bind_some, hread]
    next hrefused =>
      cases h
      exact ⟨[], t :: tokens, r, rfl, rfl, .inl ⟨t, tokens, rfl, hrefused, rfl⟩⟩

end Reading

open DecisionDiagrams.Frame Reading

namespace Derivation

theorem precedence_of_prefixOperator? {s : Symbol} {op : Operator}
    (h : s.prefixOperator? = some op) : op.precedence = 4 := by
  cases s <;> cases h <;> rfl

theorem next?_opening (frames : List (Frame α)) :
    (before frames).next? (.symbol .opening) = some (before (.group :: frames)) := rfl

theorem next?_prefix {s : Symbol} {op : Operator} (h : s.prefixOperator? = some op)
    (frames : List (Frame α)) :
    (before frames).next? (.symbol s) = some (before (.awaiting op [] :: frames)) := by
  cases s <;> cases h <;> rfl

theorem next?_infix {s : Symbol} {op : Operator} (h : s.infixOperator? = some op)
    {frames frames' : List (Frame α)} {tree tree' : Expr α}
    (hfold : fold op.precedence frames tree = (frames', tree')) :
    (after frames tree).next? (.symbol s) = some (before (.awaiting op [tree'] :: frames')) := by
  cases s <;> cases h <;> simp [next?, Symbol.infixOperator?, hfold]

theorem next?_closing {frames frames' : List (Frame α)} {tree tree' : Expr α}
    (hfold : fold 0 frames tree = (.group :: frames', tree')) :
    (after frames tree).next? (.symbol .closing) = some (after frames' tree') := by
  simp [next?, hfold]

/-- Reading a phrase leads to its tree, up to operators that hold it less tightly. -/
theorem nextAll?_tokens {p : Nat} (d : Derivation α p) (frames : List (Frame α))
    (hframes : p < 4 → Awaits p frames) :
    ∃ frames' tree', (before frames).nextAll? d.tokens = some (after frames' tree') ∧
      ∀ q ≤ p, fold q frames' tree' = fold q frames d.tree := by
  induction d generalizing frames with
  | literal x => exact ⟨frames, .literal x, rfl, fun q hq => rfl⟩
  | name text => exact ⟨frames, _, rfl, fun q hq => rfl⟩
  | group inner ih =>
    obtain ⟨frames', tree', hread, hfold⟩ := ih (.group :: frames) fun _ => trivial
    refine ⟨frames, inner.tree, ?_, fun q hq => rfl⟩
    rw [tokens, nextAll?_cons, next?_opening, Option.bind_some, nextAll?_append, hread,
      Option.bind_some, nextAll?_cons, next?_closing (hfold 0 le_rfl)]
    rfl
  | prefixed s op hs operand ih =>
    obtain ⟨frames', tree', hread, hfold⟩ := ih (.awaiting op [] :: frames)
      fun h => absurd h (Nat.lt_irrefl 4)
    refine ⟨frames', tree', ?_, fun q hq => ?_⟩
    · rw [tokens, nextAll?_cons, next?_prefix hs, Option.bind_some, hread]
    · rw [hfold q hq, fold_awaiting (hq.trans_eq (precedence_of_prefixOperator? hs).symm)]
      rfl
  | @infixed p s op hs hp left right ihLeft ihRight =>
    subst hp
    have hawaits : Awaits op.precedence frames := hframes (precedence_lt_four hs)
    obtain ⟨frames', tree', hread, hfold⟩ := ihLeft frames hframes
    have htop := (hfold op.precedence le_rfl).trans (hawaits.fold_eq left.tree)
    obtain ⟨frames'', tree'', hread', hfold'⟩ := ihRight (.awaiting op [left.tree] :: frames)
      fun _ => op.precedence.lt_succ_self
    refine ⟨frames'', tree'', ?_, fun q hq => ?_⟩
    · rw [tokens, nextAll?_append, hread, Option.bind_some, nextAll?_cons, next?_infix hs htop,
        Option.bind_some, hread']
    · rw [hfold' q (hq.trans (Nat.le_succ _)), fold_awaiting hq]
      rfl
  | tighter hp inner ih =>
    obtain ⟨frames', tree', hread, hfold⟩ := ih frames fun _ => (hframes hp).mono (Nat.le_succ _)
    exact ⟨frames', tree', hread, fun q hq => hfold q (hq.trans (Nat.le_succ _))⟩

/-- A phrase of a category is a phrase of each category that holds less tightly. -/
theorem exists_looser {p k : Nat} (h : p ≤ k) (d : Derivation α k) :
    ∃ d' : Derivation α p, d'.tokens = d.tokens ∧ d'.tree = d.tree ∧
      ∀ {β : Type} (f : α → β), (d'.map f).tree = (d.map f).tree := by
  induction h with
  | refl => exact ⟨d, rfl, rfl, fun f => rfl⟩
  | @step k h ih =>
    have hk : k < 4 := d.le_four
    exact ih (.tighter hk d)

end Derivation

namespace Frame

/-- After the tokens the frames are open, and wait for a phrase of category `p`. -/
inductive Opened : Nat → List (Frame α) → List (Token α) → Prop where
  | nil : Opened 0 [] []
  | group {p : Nat} {frames : List (Frame α)} {ts : List (Token α)} (h : Opened p frames ts) :
      Opened 0 (.group :: frames) (ts ++ [.symbol .opening])
  | prefixed {p : Nat} {frames : List (Frame α)} {ts : List (Token α)} {s : Symbol}
      {op : Operator} (hs : s.prefixOperator? = some op) (h : Opened p frames ts) :
      Opened 4 (.awaiting op [] :: frames) (ts ++ [.symbol s])
  | infixed {p : Nat} {frames : List (Frame α)} {ts : List (Token α)} {s : Symbol}
      {op : Operator} (hs : s.infixOperator? = some op) (hp : p ≤ op.precedence)
      (left : Derivation α op.precedence) (h : Opened p frames ts) :
      Opened (op.precedence + 1) (.awaiting op [left.tree] :: frames)
        (ts ++ (left.tokens ++ [.symbol s]))

theorem Opened.le_four {p : Nat} {frames : List (Frame α)} {ts : List (Token α)}
    (h : Opened p frames ts) : p ≤ 4 := by
  cases h with
  | nil => exact Nat.zero_le 4
  | group h => exact Nat.zero_le 4
  | prefixed hs h => exact le_rfl
  | infixed hs hp left h => exact Derivation.precedence_lt_four hs

/-- Folding completes phrases. -/
theorem Opened.fold {p k q : Nat} {frames : List (Frame α)} {ts : List (Token α)}
    (h : Opened p frames ts) (d : Derivation α k) (hp : p ≤ k) (hq : q ≤ k) :
    ∃ (p' : Nat) (ts' : List (Token α)) (d' : Derivation α q),
      Opened p' (Frame.fold q frames d.tree).1 ts' ∧ p' ≤ q ∧
        ts' ++ d'.tokens = ts ++ d.tokens ∧ d'.tree = (Frame.fold q frames d.tree).2 := by
  induction h generalizing k with
  | nil =>
    obtain ⟨d', htokens, htree, -⟩ := d.exists_looser hq
    exact ⟨0, [], d', .nil, q.zero_le, by rw [htokens], htree⟩
  | @group p frames ts h ih =>
    obtain ⟨d', htokens, htree, -⟩ := d.exists_looser hq
    exact ⟨0, _, d', .group h, q.zero_le, by rw [htokens], htree⟩
  | @prefixed p frames ts s op hs h ih =>
    obtain rfl : k = 4 := le_antisymm d.le_four hp
    have hop := Derivation.precedence_of_prefixOperator? hs
    obtain ⟨p', ts', d', hopened, hp', htokens, htree⟩ :=
      ih (.prefixed s op hs d) h.le_four hq
    rw [fold_awaiting (hq.trans_eq hop.symm)]
    exact ⟨p', ts', d', hopened, hp', by simpa [Derivation.tokens] using htokens, htree⟩
  | @infixed p frames ts s op hs hle left h ih =>
    by_cases hop : q ≤ op.precedence
    · obtain ⟨right, htokens, htree, -⟩ := d.exists_looser hp
      obtain ⟨p', ts', d', hopened, hp', htokens', htree'⟩ :=
        ih (.infixed s op hs rfl left right) hle hop
      rw [fold_awaiting hop]
      rw [Derivation.tree, htree] at hopened htree'
      refine ⟨p', ts', d', hopened, hp', ?_, htree'⟩
      simpa [Derivation.tokens, htokens] using htokens'
    · obtain ⟨d', htokens, htree, -⟩ := d.exists_looser hq
      have hawaits : Awaits q (.awaiting op [left.tree] :: frames) := Nat.lt_of_not_le hop
      rw [hawaits.fold_eq]
      exact ⟨_, _, d', .infixed hs hle left h, Nat.lt_of_not_le hop, by rw [htokens], htree⟩

end Frame

namespace Reading

/-- The state is where reading the tokens leads, and what has been completed is derived. -/
def Derives : Reading α → List (Token α) → Prop
  | before frames, ts => ∃ p, Opened p frames ts
  | after frames tree, ts => ∃ p earlier, ∃ d : Derivation α 4,
      Opened p frames earlier ∧ earlier ++ d.tokens = ts ∧ d.tree = tree

theorem Derives.next? {r r' : Reading α} {ts : List (Token α)} (h : r.Derives ts) {t : Token α}
    (hnext : r.next? t = some r') : r'.Derives (ts ++ [t]) := by
  unfold Reading.next? at hnext
  split at hnext
  next frames x =>
    cases hnext
    obtain ⟨p, hopened⟩ := h
    exact ⟨p, ts, .literal x, hopened, rfl, rfl⟩
  next frames text =>
    cases hnext
    obtain ⟨p, hopened⟩ := h
    exact ⟨p, ts, .name text, hopened, rfl, rfl⟩
  next frames s =>
    obtain ⟨p, hopened⟩ := h
    split at hnext
    next hs => cases hnext; exact ⟨0, hs ▸ .group hopened⟩
    next =>
      obtain ⟨op, hop, rfl⟩ := Option.map_eq_some_iff.mp hnext
      exact ⟨4, .prefixed hop hopened⟩
  next frames tree s =>
    obtain ⟨p, earlier, d, hopened, rfl, rfl⟩ := h
    split at hnext
    next hs =>
      obtain ⟨p', ts', d', hopened', -, htokens, htree⟩ :=
        hopened.fold d hopened.le_four (Nat.zero_le 4)
      split at hnext
      next frames' tree' heq =>
        cases hnext
        rw [heq] at hopened' htree
        cases hopened' with
        | group hopened' =>
          refine ⟨_, _, .group d', hopened', ?_, htree⟩
          rw [hs, ← htokens]
          simp [Derivation.tokens]
      next => cases hnext
    next =>
      obtain ⟨op, hop, rfl⟩ := Option.map_eq_some_iff.mp hnext
      obtain ⟨p', ts', d', hopened', hle, htokens, htree⟩ :=
        hopened.fold d hopened.le_four (Derivation.precedence_lt_four hop).le
      cases hfold : Frame.fold op.precedence frames d.tree with
      | mk frames' tree' =>
        rw [hfold] at hopened' htree
        obtain rfl := htree
        rw [← htokens, List.append_assoc]
        exact ⟨_, .infixed hop hle d' hopened'⟩
  next => cases hnext

theorem Derives.nextAll? {r r' : Reading α} {ts ts' : List (Token α)} (h : r.Derives ts)
    (hnext : r.nextAll? ts' = some r') : r'.Derives (ts ++ ts') := by
  induction ts' generalizing r ts with
  | nil =>
    cases hnext
    rwa [List.append_nil]
  | cons t ts' ih =>
    rw [nextAll?_cons] at hnext
    obtain ⟨r₁, hfirst, hrest⟩ := Option.bind_eq_some_iff.mp hnext
    have hr' := ih (h.next? hfirst) hrest
    rwa [List.append_assoc] at hr'

theorem derives_of_nextAll? {r : Reading α} {ts : List (Token α)}
    (h : start.nextAll? ts = some r) : r.Derives ts := by
  have hstart : (start : Reading α).Derives [] := ⟨0, .nil⟩
  exact hstart.nextAll? h

theorem Derives.tree? {r : Reading α} {ts : List (Token α)} (h : r.Derives ts) {e : Expr α}
    (htree : r.tree? = some e) : ∃ d : Derivation α 0, d.tokens = ts ∧ d.tree = e := by
  unfold Reading.tree? at htree
  split at htree
  next => cases htree
  next frames tree =>
    obtain ⟨p, earlier, d, hopened, rfl, rfl⟩ := h
    obtain ⟨p', ts', d', hopened', -, htokens, htree'⟩ :=
      hopened.fold d hopened.le_four (Nat.zero_le 4)
    split at htree
    next heq =>
      cases htree
      rw [heq] at hopened' htree'
      cases hopened'
      exact ⟨d', htokens, htree'⟩
    next => cases htree

end Reading

/-- The tree of a sequence of tokens is that of its derivation. -/
theorem Lexed.tree_eq_ok_iff {l : Lexed α} {e : Expr α} :
    l.tree = .ok e ↔ ∃ d : Derivation α 0, d.tokens = l.items ∧ d.tree = e := by
  rw [Lexed.tree, run_eq_ok_iff]
  constructor
  · intro h
    obtain ⟨r, hread, htree⟩ := Option.bind_eq_some_iff.mp h
    exact (derives_of_nextAll? hread).tree? htree
  · rintro ⟨d, htokens, rfl⟩
    obtain ⟨frames, tree, hread, hfold⟩ := d.nextAll?_tokens [] fun _ => trivial
    rw [← show d.tokens = l.tokens.map Located.item from htokens, start, hread, Option.bind_some,
      tree?, hfold 0 le_rfl]
    rfl

end DecisionDiagrams
