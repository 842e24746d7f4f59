import DecisionDiagrams.Proofs.Grammar.Language
import DecisionDiagrams.Proofs.Grammar.Place
import DecisionDiagrams.Proofs.Text.Position
import Mathlib.Algebra.Ring.Nat

/-! How deep a text is nested at each of its characters, and that the scan over the characters
finds the first one that is nested too deep. -/
namespace DecisionDiagrams

namespace Derivation

variable {α : Type} {p : Nat}

/-- How many parentheses are open and how many prefix operators wait for the end of their operand
when `k` tokens of a phrase have been read. -/
def openAfter {p : Nat} : Derivation α p → Nat → Nat
  | literal _, _ => 0
  | name _, _ => 0
  | group inner, k =>
    if 0 < k ∧ k < inner.tokens.length + 2 then inner.openAfter (k - 1) + 1 else 0
  | prefixed _ _ _ operand, k =>
    if 0 < k ∧ k < operand.tokens.length + 1 then operand.openAfter (k - 1) + 1 else 0
  | infixed _ _ _ _ left right, k =>
    left.openAfter k + right.openAfter (k - (left.tokens.length + 1))
  | tighter _ inner, k => inner.openAfter k

@[simp] theorem openAfter_zero (d : Derivation α p) : d.openAfter 0 = 0 := by
  induction d with
  | infixed s op hs hp left right ihLeft ihRight => simp [openAfter, ihLeft, ihRight]
  | tighter hp inner ih => exact ih
  | _ => rfl

theorem openAfter_of_le (d : Derivation α p) {k : Nat} (hk : d.tokens.length ≤ k) :
    d.openAfter k = 0 := by
  induction d generalizing k with
  | literal x => rfl
  | name text => rfl
  | group inner ih =>
    rw [tokens, List.length_cons, List.length_append, List.length_singleton] at hk
    exact if_neg fun h => by omega
  | prefixed s op hs operand ih =>
    rw [tokens, List.length_cons] at hk
    exact if_neg fun h => by omega
  | infixed s op hs hp left right ihLeft ihRight =>
    rw [tokens, List.length_append, List.length_cons] at hk
    rw [openAfter, ihLeft (by omega), ihRight (by omega)]
  | tighter hp inner ih => exact ih hk

theorem length_depths (d : Derivation α p) (outer pending : Nat) :
    (d.depths outer pending).length = d.tokens.length := by
  induction d generalizing outer pending with
  | literal x => rfl
  | name text => rfl
  | group inner ih => simp [depths, tokens, ih]
  | prefixed s op hs operand ih => simp [depths, tokens, ih]
  | infixed s op hs hp left right ihLeft ihRight => simp [depths, tokens, ihLeft, ihRight]
  | tighter hp inner ih => exact ih outer pending

/-- Behind `pending` prefix operators, which wait up to the last token of the phrase. -/
theorem getElem?_depths (d : Derivation α p) (outer : Nat) {pending k : Nat}
    (hpending : p < 4 → pending = 0) (hk : k < d.tokens.length) :
    (d.depths outer pending)[k]? =
      some (outer + (if k + 1 < d.tokens.length then pending else 0) + d.openAfter (k + 1)) := by
  -- A prefix operator puts its operand behind one more, which waits until the operand ends.
  induction d generalizing outer pending k with
  | literal x =>
    obtain rfl : k = 0 := Nat.lt_one_iff.mp hk
    simp [depths, tokens, openAfter]
  | name text =>
    obtain rfl : k = 0 := Nat.lt_one_iff.mp hk
    simp [depths, tokens, openAfter]
  | group inner ih =>
    rw [tokens, List.length_cons, List.length_append, List.length_singleton] at hk
    rw [depths, tokens, List.length_cons, List.length_append, List.length_singleton, openAfter]
    cases k with
    | zero => simp [Nat.add_assoc]
    | succ k =>
      rw [List.getElem?_cons_succ]
      by_cases hinner : k < inner.tokens.length
      · rw [List.getElem?_append_left (by rwa [length_depths]), ih _ (fun _ => rfl) hinner,
          ite_self, if_pos (by omega), if_pos (by omega), Nat.add_sub_cancel]
        congr 1
        omega
      · obtain rfl : k = inner.tokens.length := by omega
        rw [List.getElem?_append_right (by rw [length_depths]), length_depths,
          if_neg (by omega), if_neg (by omega)]
        simp
  | prefixed s op hs operand ih =>
    rw [tokens, List.length_cons] at hk
    rw [depths, tokens, List.length_cons, openAfter]
    have hlength := List.length_pos_iff.mpr operand.tokens_ne_nil
    cases k with
    | zero => simp [Nat.add_assoc, hlength]
    | succ k =>
      rw [List.getElem?_cons_succ, ih outer (fun h => absurd h (Nat.lt_irrefl 4)) (by omega),
        Nat.add_sub_cancel]
      by_cases hlast : k + 1 < operand.tokens.length
      · rw [if_pos hlast, if_pos (by omega), if_pos (by omega)]
        congr 1
        omega
      · rw [if_neg hlast, if_neg (by omega), if_neg (by omega),
          operand.openAfter_of_le (by omega)]
  | infixed s op hs hp left right ihLeft ihRight =>
    obtain rfl := hpending (hp ▸ precedence_lt_four hs)
    rw [tokens, List.length_append, List.length_cons] at hk
    rw [depths, openAfter, ite_self, Nat.add_zero outer]
    -- In front of the operator, at it, and behind it.
    rcases Nat.lt_trichotomy k left.tokens.length with hleft | rfl | hright
    · rw [List.getElem?_append_left (by rwa [length_depths]),
        @ihLeft outer 0 k (fun _ => rfl) hleft, ite_self, Nat.add_zero outer,
        Nat.sub_eq_zero_of_le (by omega), openAfter_zero]
      rfl
    · rw [List.getElem?_append_right (by rw [length_depths]), length_depths, Nat.sub_self,
        left.openAfter_of_le (by omega), Nat.sub_self, openAfter_zero]
      rfl
    · obtain ⟨j, rfl⟩ := Nat.exists_eq_add_of_lt hright
      rw [List.getElem?_append_right (by rw [length_depths]; omega), length_depths,
        left.openAfter_of_le (by omega), Nat.zero_add, Nat.add_assoc, Nat.add_sub_cancel_left,
        List.getElem?_cons_succ, @ihRight outer 0 j (fun _ => rfl) (by omega), ite_self,
        Nat.add_zero outer]
      congr 3
      omega
  | tighter hp inner ih =>
    obtain rfl := hpending hp
    exact ih outer (fun _ => rfl) hk

end Derivation

namespace Nesting

variable {n : Nesting} {ts : List (Token Numeral)}

theorem getElem?_depths (n : Nesting) {k : Nat} (hk : k < ts.length) :
    (n.depths ts)[k]? = some (n.readAll (ts.take (k + 1))).depth := by
  induction ts generalizing n k with
  | nil => exact absurd hk (Nat.not_lt_zero k)
  | cons t ts ih =>
    cases k with
    | zero => rfl
    | succ k =>
      rw [depths, List.getElem?_cons_succ, ih (n.read t) (Nat.lt_of_succ_lt_succ hk)]
      rfl

/-- The tokens at the start of a sentence leave as much open as its derivation says. -/
theorem depth_readAll (d : Derivation Numeral 0) (h : ts <+: d.tokens) :
    (start.readAll ts).depth = d.openAfter ts.length := by
  obtain ⟨us, hus⟩ := h
  cases hlength : ts.length with
  | zero =>
    obtain rfl := List.length_eq_zero_iff.mp hlength
    exact d.openAfter_zero.symm
  | succ k =>
    have hk : k < d.tokens.length := by
      rw [← hus, List.length_append]
      omega
    have htake : d.tokens.take (k + 1) = ts := by rw [← hus, ← hlength, List.take_left]
    have hread := start.getElem?_depths hk
    rw [depths_tokens d rfl, htake] at hread
    simpa [start] using (hread.symm.trans (d.getElem?_depths 0 (fun _ => rfl) hk))

theorem after_cut {cs : List Char} (h : Cut cs ts) : n.after cs = n.readAll ts := by
  induction h generalizing n with
  | nil => rfl
  | separator hc h ih =>
    rw [after, List.foldl_cons, next_of_isSeparator hc]
    exact ih
  | token ht h ih =>
    rw [after_append, (scan_token ht.isLexeme n).2, readAll_cons]
    exact ih

/-- At each character of a text the scan is as deep as the tokens that have begun. -/
theorem depth_after {text before rest : List Char} {c : Char} (h : BegunAt text before ts)
    (htext : text = before ++ c :: rest) :
    (n.after (before ++ [c])).depth = (n.readAll ts).depth := by
  cases h with
  | separator hc h =>
    cases List.append_cancel_left htext
    rw [after_append, after_cut h.cut, after, List.foldl_cons, next_of_isSeparator hc]
    rfl
  | @token t c' before cs ds rest' ts ht hspelling h =>
    rw [hspelling, List.append_assoc, List.append_assoc] at htext
    cases List.append_cancel_left (List.append_cancel_left htext)
    have hmem : ((n.readAll ts).after (cs ++ [c])).depth ∈ (n.readAll ts).depthsAlong t.spelling :=
      mem_depthsAlong.mpr ⟨cs, c, ds, hspelling, rfl⟩
    rw [(scan_token ht.isLexeme (n.readAll ts)).1] at hmem
    rw [List.append_assoc, after_append, after_cut h.cut, List.eq_of_mem_replicate hmem,
      readAll_append]
    rfl

end Nesting

structure Derivation.FirstTooDeep (d : Derivation Numeral 0) (text before : List Char) : Prop where
  tooDeep : ∃ ts, BegunAt text before ts ∧ maxNesting < d.openAfter ts.length
  first : ∀ before' ts, before'.length < before.length → BegunAt text before' ts →
    d.openAfter ts.length ≤ maxNesting

/-- At each character of a sentence the scan is as deep as its derivation says. -/
theorem Derivation.depth_after {d : Derivation Numeral 0} {text before rest : List Char} {c : Char}
    {ts : List (Token Numeral)} (h : Cut text d.tokens) (hbegun : BegunAt text before ts)
    (htext : text = before ++ c :: rest) :
    (Nesting.start.after (before ++ [c])).depth = d.openAfter ts.length := by
  rw [Nesting.depth_after hbegun htext, Nesting.depth_readAll d (hbegun.prefix_of_cut h)]

/-- The scan stops at the first character of a sentence that is nested too deep. -/
theorem Derivation.tooDeepAt?_eq_some_iff {d : Derivation Numeral 0} {text : List Char}
    (h : Cut text d.tokens) (p : Position) {q : Position} :
    Nesting.start.tooDeepAt? p text = some q ↔
      ∃ before, d.FirstTooDeep text before ∧ q = p.afterAll before := by
  rw [Nesting.tooDeepAt?_eq_some]
  constructor
  · rintro ⟨before, c, rest, htext, rfl, hdeep, hbefore⟩
    obtain ⟨ts, hbegun, -⟩ := h.exists_begunAt htext
    rw [depth_after h hbegun htext] at hdeep
    refine ⟨before, ⟨⟨ts, hbegun, hdeep⟩, fun before' ts' hlt hbegun' => ?_⟩, rfl⟩
    obtain ⟨c', rest', htext'⟩ := hbegun'.exists_text
    obtain ⟨more, rfl⟩ : before' ++ [c'] <+: before := by
      refine List.prefix_of_prefix_length_le ⟨rest', ?_⟩ ⟨c :: rest, htext.symm⟩ ?_
      · rw [htext', List.append_assoc]
        rfl
      · rwa [List.length_append]
    rw [← depth_after h hbegun' htext']
    apply hbefore
    exact Nesting.mem_depthsAlong.mpr ⟨before', c', more, by simp, rfl⟩
  · rintro ⟨before, ⟨⟨ts, hbegun, hdeep⟩, hfirst⟩, rfl⟩
    obtain ⟨c, rest, htext⟩ := hbegun.exists_text
    refine ⟨before, c, rest, htext, rfl, by rwa [depth_after h hbegun htext], fun depth hmem => ?_⟩
    obtain ⟨before', c', more, rfl, rfl⟩ := Nesting.mem_depthsAlong.mp hmem
    have htext' : text = before' ++ c' :: (more ++ c :: rest) := by
      rw [htext, List.append_assoc]
      rfl
    obtain ⟨ts', hbegun', -⟩ := h.exists_begunAt htext'
    rw [depth_after h hbegun' htext']
    exact hfirst before' ts' (by simp) hbegun'

/-- The scan never takes away more than it has put away. -/
theorem Nesting.Counted.after {n : Nesting} (h : n.Counted) (cs : List Char) :
    (n.after cs).Counted := by
  induction cs generalizing n with
  | nil => exact h
  | cons c cs ih => exact ih (h.next c)

theorem Nesting.opened_eq (enclosing : List Nat) :
    opened enclosing = enclosing.sum + enclosing.length := by
  induction enclosing with
  | nil => rfl
  | cons count enclosing ih =>
    rw [opened, ih, List.sum_cons, List.length_cons]
    omega

theorem Nesting.Counted.le_outer {n : Nesting} (h : n.Counted) {count : Nat}
    (hcount : count ∈ n.enclosing.head?) : count + 1 ≤ n.outer := by
  obtain ⟨enclosing, heq⟩ := List.head?_eq_some_iff.mp hcount
  rw [Counted, heq, opened] at h
  omega

/-- Some character of a sentence is nested too deep exactly if the scan stops. -/
theorem Derivation.exists_tooDeepAt?_iff {d : Derivation Numeral 0} {text : List Char}
    (h : Cut text d.tokens) (p : Position) :
    (∃ q, Nesting.start.tooDeepAt? p text = some q) ↔
      ∃ before ts, BegunAt text before ts ∧ maxNesting < d.openAfter ts.length := by
  constructor
  · rintro ⟨q, hq⟩
    obtain ⟨before, hfirst, -⟩ := (tooDeepAt?_eq_some_iff h p).mp hq
    exact ⟨before, hfirst.tooDeep⟩
  · rintro ⟨before, ts, hbegun, hdeep⟩
    obtain ⟨c, rest, htext⟩ := hbegun.exists_text
    rw [← Option.isSome_iff_exists, Option.isSome_iff_ne_none]
    intro hnone
    have hle := Nesting.tooDeepAt?_eq_none.mp hnone _
      (Nesting.mem_depthsAlong.mpr ⟨before, c, rest, htext, rfl⟩)
    rw [depth_after h hbegun htext] at hle
    exact hdeep.not_ge hle

/-- A text that is scanned to its end is nowhere too deep between whole tokens. -/
theorem Nesting.depth_readAll_le {text before : List Char} {ts ts' : List (Token Numeral)}
    {p : Position} (h : start.tooDeepAt? p text = none) (hbefore : before <+: text)
    (hcut : Cut before ts) (hts : ts' <+: ts) : (start.readAll ts').depth ≤ maxNesting := by
  obtain ⟨rest, rfl⟩ := hbefore
  have hdepths := (tooDeepAt?_eq_none_iff hcut (Nat.zero_le _) p).mp (tooDeepAt?_of_append h)
  cases hlength : ts'.length with
  | zero =>
    obtain rfl := List.length_eq_zero_iff.mp hlength
    exact Nat.zero_le _
  | succ k =>
    have hdepth := start.getElem?_depths (hlength ▸ hts.length_le : k + 1 ≤ ts.length)
    rw [← hlength, ← List.prefix_iff_eq_take.mp hts] at hdepth
    exact hdepths _ (List.mem_of_getElem? hdepth)

section Open

variable {α : Type}

/-- A group, or a prefix operator, which waits for its only operand. -/
def Frame.isNesting : Frame α → Bool
  | group => true
  | awaiting _ earlier => earlier.isEmpty

def Reading.nested : Reading α → Nat
  | before frames => frames.countP Frame.isNesting
  | after frames _ => frames.countP Frame.isNesting

end Open

/-- Where an operand is due, the scan is as deep as the frames that are open. -/
theorem Frame.Opened.readAll {p : Nat} {frames : List (Frame Numeral)} {ts : List (Token Numeral)}
    (h : Opened p frames ts) :
    (Nesting.start.readAll ts).expectsOperand = true ∧
      (Nesting.start.readAll ts).depth = frames.countP isNesting ∧
      (p < 4 → (Nesting.start.readAll ts).pending = 0) := by
  induction h with
  | nil => exact ⟨rfl, rfl, fun _ => rfl⟩
  | @group p frames ts h ih =>
    obtain ⟨-, hdepth, -⟩ := ih
    rw [Nesting.readAll_append, List.countP_cons_of_pos rfl, ← hdepth]
    exact ⟨rfl, rfl, fun _ => rfl⟩
  | @prefixed p frames ts s op hs h ih =>
    obtain ⟨hexpects, hdepth, -⟩ := ih
    rw [Nesting.readAll_append, List.countP_cons_of_pos rfl, ← hdepth, Nesting.readAll_cons,
      Nesting.read_prefix hs hexpects]
    exact ⟨hexpects, rfl, fun h => absurd h (Nat.lt_irrefl 4)⟩
  | @infixed p frames ts s op hs hp left h ih =>
    obtain ⟨hexpects, hdepth, hpending⟩ := ih
    have hzero := hpending (hp.trans_lt (Derivation.precedence_lt_four hs))
    rw [Nesting.readAll_append, Nesting.readAll_append, Nesting.readAll_tokens left hexpects,
      Nesting.readAll_cons, Nesting.read_infix hs, List.countP_cons_of_neg Bool.false_ne_true,
      ← hdepth]
    exact ⟨rfl, Nesting.depth_operand hzero, fun _ => rfl⟩

/-- The pass has no more open than the scan counts somewhere up to this point. -/
theorem Reading.Derives.nested {r : Reading Numeral} {ts : List (Token Numeral)}
    (h : r.Derives ts) :
    ∃ ts', ts' <+: ts ∧ (Nesting.start.readAll ts').depth = r.nested := by
  cases r with
  | before frames =>
    obtain ⟨p, hopened⟩ := h
    exact ⟨ts, List.prefix_rfl, hopened.readAll.2.1⟩
  | after frames tree =>
    obtain ⟨p, earlier, d, hopened, htokens, -⟩ := h
    exact ⟨earlier, ⟨d.tokens, htokens⟩, hopened.readAll.2.1⟩

/-- The scan keeps the sum of what it has put away, and stops exactly at the first character that
is nested too deep. In a text that passes, no tokens that begin a sentence leave more open than the
limit, and neither does the pass over them. -/
theorem nesting_scan_exact (text : String) :
    (∀ cs, (Nesting.start.after cs).outer =
        (Nesting.start.after cs).enclosing.sum + (Nesting.start.after cs).enclosing.length ∧
      ∀ count ∈ (Nesting.start.after cs).enclosing.head?,
        count + 1 ≤ (Nesting.start.after cs).outer) ∧
    (∀ d : Derivation Numeral 0, Cut text.toList d.tokens →
      ((∃ p, grammatical text = .error ⟨.tooDeep, some p⟩) ↔
        ∃ before ts, BegunAt text.toList before ts ∧ maxNesting < d.openAfter ts.length) ∧
      ∀ p, grammatical text = .error ⟨.tooDeep, some p⟩ ↔
        ∃ before, d.FirstTooDeep text.toList before ∧
          p = ⟨before.count '\n' + 1, (before.rtakeWhile (· ≠ '\n')).length + 1⟩) ∧
    ((∀ p, grammatical text ≠ .error ⟨.tooDeep, some p⟩) →
      ∀ before ts, before <+: text.toList → Cut before ts →
        (∀ d : Derivation Numeral 0, ts <+: d.tokens → d.openAfter ts.length ≤ maxNesting) ∧
        ∀ r : Reading Numeral, Reading.start.nextAll? ts = some r → r.nested ≤ maxNesting) := by
  simp only [ne_eq, grammatical_eq_tooDeep_iff]
  refine ⟨fun cs => ?_, fun d hcut => ⟨d.exists_tooDeepAt?_iff hcut _, fun p => ?_⟩,
    fun hpass before ts hbefore hcut => ?_⟩
  · have hcounted := Nesting.start_counted.after cs
    exact ⟨hcounted.trans (Nesting.opened_eq _), fun count hcount => hcounted.le_outer hcount⟩
  · simp only [d.tooDeepAt?_eq_some_iff hcut, Position.afterAll_start]
  · have hnone := Option.eq_none_iff_forall_ne_some.mpr hpass
    refine ⟨fun d hbegin => ?_, fun r hr => ?_⟩
    · rw [← Nesting.depth_readAll d hbegin]
      exact Nesting.depth_readAll_le hnone hbefore hcut List.prefix_rfl
    · obtain ⟨ts', hts', hnested⟩ := (Reading.derives_of_nextAll? hr).nested
      rw [← hnested]
      exact Nesting.depth_readAll_le hnone hbefore hcut hts'

/-- In `!(2e-3 - -a)` the sign of the exponent and the infix operator do not count, and three are
open at the prefix operator in front of `a`. -/
theorem nesting_scan_exact_exponent :
    ∃ d : Derivation Numeral 0, Cut "!(2e-3 - -a)".toList d.tokens ∧
      (∀ p, grammatical "!(2e-3 - -a)" ≠ .error ⟨.tooDeep, some p⟩) ∧
      (¬∃ before ts, BegunAt "!(2e-3 - -a)".toList before ts ∧
        maxNesting < d.openAfter ts.length) ∧
      Cut "!(2e-3 - -".toList (d.tokens.take 5) ∧ d.openAfter 5 = 3 ∧
      d.openAfter (d.tokens.take 5).length ≤ maxNesting := by
  let negated : Derivation Numeral 3 :=
    .tighter (by decide) (.prefixed .minus .negate rfl (.name ['a']))
  let literal : Derivation Numeral 4 := .literal ⟨['2'], none, some ⟨'e', some '-', ['3']⟩⟩
  let difference : Derivation Numeral 2 := .infixed .minus .subtract rfl rfl
    (.tighter (by decide) (.tighter (by decide) literal)) negated
  let group : Derivation Numeral 4 :=
    .group (.tighter (by decide) (.tighter (by decide) difference))
  let d : Derivation Numeral 0 := .tighter (by decide) (.tighter (by decide) (.tighter (by decide)
    (.tighter (by decide) (.prefixed .bang .not rfl group))))
  have hcut : Cut "!(2e-3 - -a)".toList d.tokens := d.cut_iff_items_lex.mpr (by decide +kernel)
  have hbefore : Cut "!(2e-3 - -".toList (d.tokens.take 5) :=
    cut_iff.mpr ⟨by decide +kernel, fun t ht => hcut.isLexeme t (List.mem_of_mem_take ht)⟩
  have hpass (p : Position) : grammatical "!(2e-3 - -a)" ≠ .error ⟨.tooDeep, some p⟩ := by
    rw [ne_eq, grammatical_eq_tooDeep_iff,
      show Nesting.start.tooDeepAt? Position.start "!(2e-3 - -a)".toList = none by decide +kernel]
    nofun
  obtain ⟨-, hsentence, hbegin⟩ := nesting_scan_exact "!(2e-3 - -a)"
  refine ⟨d, hcut, hpass, ?_, hbefore, by decide, ?_⟩
  · rw [← (hsentence d hcut).1]
    exact fun ⟨p, hp⟩ => hpass p hp
  · exact (hbegin hpass _ _ ⟨['a', ')'], by decide⟩ hbefore).1 d (d.tokens.take_prefix 5)

end DecisionDiagrams
