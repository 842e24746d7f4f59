import DecisionDiagrams.Grammar.Nesting
import DecisionDiagrams.Proofs.Grammar.Derivation
import DecisionDiagrams.Proofs.Grammar.Token

/-! The nesting of a text, which is measured character by character, is that of its phrases. -/
namespace DecisionDiagrams

namespace Derivation

variable {α : Type}

/-- How many parentheses are open and prefix operators wait for their operand at each token of a
phrase that stands within `outer` of them, behind `pending` more prefix operators. -/
def depths {p : Nat} : Derivation α p → Nat → Nat → List Nat
  | literal _, outer, _ => [outer]
  | name _, outer, _ => [outer]
  | group inner, outer, pending =>
    (outer + (pending + 1)) :: (inner.depths (outer + (pending + 1)) 0 ++ [outer])
  | prefixed _ _ _ operand, outer, pending =>
    (outer + (pending + 1)) :: operand.depths outer (pending + 1)
  | infixed _ _ _ _ left right, outer, pending =>
    left.depths outer pending ++ outer :: right.depths outer 0
  | tighter _ inner, outer, pending => inner.depths outer pending

/-- Nowhere in the phrase are too many parentheses open or prefix operators waiting. -/
def WithinLimit {p : Nat} (d : Derivation α p) : Prop := ∀ depth ∈ d.depths 0 0, depth ≤ maxNesting

end Derivation

namespace Nesting

def operand (n : Nesting) : Nesting := { n with pending := 0, expectsOperand := false }

def operator (n : Nesting) : Nesting := { n with expectsOperand := true }

/-- The nesting after a token. -/
def read (n : Nesting) : Token Numeral → Nesting
  | .literal _ => n.operand
  | .name _ => n.operand
  | .symbol .opening => n.openGroup
  | .symbol .closing => n.closeGroup
  | .symbol s =>
    if n.expectsOperand ∧ s.prefixOperator?.isSome then { n with pending := n.pending + 1 }
    else n.operator
  | .stray _ => n

/-- The depth after each of the tokens. -/
def depths (n : Nesting) : List (Token Numeral) → List Nat
  | [] => []
  | t :: ts => (n.read t).depth :: (n.read t).depths ts

theorem toNat_of_isOperandChar {c : Char} (h : isOperandChar c = true) :
    46 ≤ c.toNat ∧ c.toNat ≤ 122 := by
  unfold isOperandChar Char.isAlphanum Char.isAlpha Char.isUpper Char.isLower Char.isDigit at h
  simp only [Bool.or_eq_true, Bool.and_eq_true, decide_eq_true_eq, ge_iff_le,
    UInt32.le_iff_toNat_le] at h
  change ((((65 ≤ c.toNat ∧ c.toNat ≤ 90) ∨ (97 ≤ c.toNat ∧ c.toNat ≤ 122)) ∨
    (48 ≤ c.toNat ∧ c.toNat ≤ 57)) ∨ c = '_') ∨ c = '.' at h
  rcases h with (h | rfl) | rfl
  · omega
  · decide
  · decide

theorem isWhiteSpace_of_isOperandChar {c : Char} (h : isOperandChar c = true) :
    isWhiteSpace c = false := by
  have hrange := toNat_of_isOperandChar h
  simp only [isWhiteSpace, whiteSpaceRuns, List.any_cons, List.any_nil, Bool.or_false,
    Bool.or_eq_false_iff, Bool.and_eq_false_iff, decide_eq_false_iff_not]
  omega

theorem next_of_isOperandChar {c : Char} (h : isOperandChar c = true) (n : Nesting) :
    n.next c = n.operand := by
  have hne {c' : Char} (hc' : c'.toNat < 46) : c ≠ c' := by
    rintro rfl
    exact (toNat_of_isOperandChar h).1.not_gt hc'
  have hopening : c ≠ '(' := hne (by decide)
  have hclosing : c ≠ ')' := hne (by decide)
  have hminus : c ≠ '-' := hne (by decide)
  have hbang : c ≠ '!' := hne (by decide)
  simp [next, isWhiteSpace_of_isOperandChar h, hopening, hclosing, hminus, hbang, h, operand]

theorem next_of_isSeparator {c : Char} (h : isSeparator c = true) (n : Nesting) : n.next c = n := by
  rcases isSeparator_iff.mp h with rfl | rfl | rfl | rfl <;> rfl

theorem isOperandChar_of_isDigit {c : Char} (h : c.isDigit = true) : isOperandChar c = true := by
  simp [isOperandChar, Char.isAlphanum, h]

theorem isNameChar_of_isNameStart {c : Char} (h : isNameStart c = true) : isNameChar c = true := by
  rw [isNameStart, Bool.or_eq_true] at h
  rw [isNameChar, Char.isAlphanum, Bool.or_eq_true, Bool.or_eq_true]
  exact h.imp_left .inl

theorem isOperandChar_of_isNameChar {c : Char} (h : isNameChar c = true) :
    isOperandChar c = true := by
  rw [isNameChar] at h
  rw [isOperandChar, h, Bool.true_or]

structure IsRun (cs : List Char) : Prop where
  ne_nil : cs ≠ []
  all : ∀ c ∈ cs, isOperandChar c = true

theorem IsRun.append {cs ds : List Char} (h : IsRun cs) (hds : ∀ c ∈ ds, isOperandChar c = true) :
    IsRun (cs ++ ds) :=
  ⟨List.append_ne_nil_of_left_ne_nil h.ne_nil ds, List.forall_mem_append.mpr ⟨h.all, hds⟩⟩

/-- Without its exponent a numeral consists of digits and a point. -/
theorem isRun_mantissa {x : Numeral} (hx : x.IsLexeme) (hnone : x.exponent = none) :
    IsRun x.spelling := by
  obtain ⟨c, cs, hspelling, -⟩ := hx.exists_head
  refine ⟨hspelling ▸ List.cons_ne_nil c cs, fun c hc => ?_⟩
  rw [Numeral.spelling, hnone, Option.elim_none, List.append_nil, List.mem_append] at hc
  rcases hc with hc | hc
  · exact isOperandChar_of_isDigit (hx.whole c hc)
  · cases hfraction : x.fraction with
    | none => simp [hfraction] at hc
    | some digits =>
      rw [hfraction, Option.elim_some, List.mem_cons] at hc
      rcases hc with rfl | hc
      · rfl
      · exact isOperandChar_of_isDigit (hx.fraction digits hfraction c hc)

/-- A numeral is a run, or two runs with the sign of the exponent between them. -/
theorem run_of_numeral {x : Numeral} (hx : x.IsLexeme) :
    IsRun x.spelling ∨ ∃ cs c ds, IsRun cs ∧ (c = '+' ∨ c = '-') ∧ IsRun ds ∧
      x.spelling = cs ++ c :: ds := by
  cases he : x.exponent with
  | none => exact .inl (isRun_mantissa hx he)
  | some e =>
    have hlexeme := hx.exponent e he
    have hdigits : IsRun e.digits :=
      ⟨hlexeme.ne_nil, fun c hc => isOperandChar_of_isDigit (hlexeme.digits c hc)⟩
    have hmark : isOperandChar e.mark = true := by
      rcases hlexeme.mark with h | h <;> rw [h] <;> decide
    have hmarked : IsRun (({ x with exponent := none } : Numeral).spelling ++ [e.mark]) :=
      (isRun_mantissa hx.without_exponent rfl).append (by simpa using hmark)
    rw [Numeral.spelling_of_exponent he, Exponent.spelling]
    cases hsign : e.sign with
    | none => exact .inl (by simpa using hmarked.append hdigits.all)
    | some c => exact .inr ⟨_, c, e.digits, hmarked, hlexeme.sign c hsign, hdigits, by simp⟩

theorem isRun_name {text : List Char} (h : (Token.name text).IsLexeme) : IsRun text := by
  obtain ⟨c, cs, rfl, hc, hcs⟩ := h
  refine ⟨List.cons_ne_nil c cs, List.forall_mem_cons.mpr ⟨?_, fun c hc => ?_⟩⟩
  · exact isOperandChar_of_isNameChar (isNameChar_of_isNameStart hc)
  · exact isOperandChar_of_isNameChar (hcs c hc)

def after (n : Nesting) (cs : List Char) : Nesting := cs.foldl next n

/-- The depth at each of the characters. -/
def depthsAlong (n : Nesting) : List Char → List Nat
  | [] => []
  | c :: cs => (n.next c).depth :: (n.next c).depthsAlong cs

section Scan

variable {n : Nesting} {p : Position} {cs ds : List Char}

theorem after_append (n : Nesting) (cs ds : List Char) :
    n.after (cs ++ ds) = (n.after cs).after ds := List.foldl_append

theorem depthsAlong_append (n : Nesting) (cs ds : List Char) :
    n.depthsAlong (cs ++ ds) = n.depthsAlong cs ++ (n.after cs).depthsAlong ds := by
  induction cs generalizing n with
  | nil => rfl
  | cons c cs ih => rw [List.cons_append, depthsAlong, depthsAlong, ih]; rfl

theorem mem_depthsAlong {depth : Nat} :
    depth ∈ n.depthsAlong cs ↔
      ∃ before c rest, cs = before ++ c :: rest ∧ (n.after (before ++ [c])).depth = depth := by
  constructor
  · intro h
    induction cs generalizing n with
    | nil => cases h
    | cons c cs ih =>
      rcases List.mem_cons.mp h with rfl | h
      · exact ⟨[], c, cs, rfl, rfl⟩
      · obtain ⟨before, c', rest, rfl, hdepth⟩ := ih h
        exact ⟨c :: before, c', rest, rfl, hdepth⟩
  · rintro ⟨before, c, rest, rfl, rfl⟩
    rw [depthsAlong_append, after_append]
    exact List.mem_append_right _ List.mem_cons_self

/-- The scan accepts a text in which no character is nested too deep. -/
theorem tooDeepAt?_eq_none :
    n.tooDeepAt? p cs = none ↔ ∀ depth ∈ n.depthsAlong cs, depth ≤ maxNesting := by
  induction cs generalizing n p with
  | nil => simp [tooDeepAt?, depthsAlong]
  | cons c cs ih =>
    rw [tooDeepAt?, depthsAlong, List.forall_mem_cons, ← ih (p := p.after c)]
    split
    next h => exact iff_of_false nofun fun hle => hle.1.not_gt h
    next h => exact (and_iff_right (Nat.le_of_not_lt h)).symm

theorem tooDeepAt?_of_append (h : n.tooDeepAt? p (cs ++ ds) = none) :
    n.tooDeepAt? p cs = none := by
  rw [tooDeepAt?_eq_none, depthsAlong_append, List.forall_mem_append] at h
  exact tooDeepAt?_eq_none.mpr h.1

/-- Otherwise it stops at the first character that is. -/
theorem tooDeepAt?_eq_some {q : Position} :
    n.tooDeepAt? p cs = some q ↔ ∃ before c ds, cs = before ++ c :: ds ∧ q = p.afterAll before ∧
      maxNesting < (n.after (before ++ [c])).depth ∧
        ∀ depth ∈ n.depthsAlong before, depth ≤ maxNesting := by
  induction cs generalizing n p with
  | nil => simp [tooDeepAt?]
  | cons c cs ih =>
    rw [tooDeepAt?]
    split
    next h =>
      constructor
      · rintro ⟨⟩
        exact ⟨[], c, cs, rfl, rfl, h, by simp [depthsAlong]⟩
      · rintro ⟨before, c', ds, heq, rfl, -, hbefore⟩
        cases before with
        | nil => rfl
        | cons c'' before =>
          cases heq
          exact absurd h (hbefore _ List.mem_cons_self).not_gt
    next h =>
      rw [ih]
      constructor
      · rintro ⟨before, c', ds, rfl, rfl, hdeep, hbefore⟩
        exact ⟨c :: before, c', ds, rfl, rfl, hdeep,
          List.forall_mem_cons.mpr ⟨Nat.le_of_not_lt h, hbefore⟩⟩
      · rintro ⟨before, c', ds, heq, rfl, hdeep, hbefore⟩
        cases before with
        | nil =>
          cases heq
          exact absurd hdeep h
        | cons c'' before =>
          cases heq
          exact ⟨before, c', ds, rfl, rfl, hdeep, (List.forall_mem_cons.mp hbefore).2⟩

theorem scan_run (h : ∀ c ∈ cs, isOperandChar c = true) :
    n.depthsAlong cs = List.replicate cs.length n.operand.depth ∧
      n.operand.after cs = n.operand := by
  induction cs generalizing n with
  | nil => exact ⟨rfl, rfl⟩
  | cons c cs ih =>
    obtain ⟨hc, hcs⟩ := List.forall_mem_cons.mp h
    obtain ⟨hdepths, hafter⟩ := ih (n := n.operand) hcs
    rw [depthsAlong, next_of_isOperandChar hc, hdepths]
    refine ⟨rfl, ?_⟩
    rw [after, List.foldl_cons, next_of_isOperandChar hc]
    exact hafter

/-- The characters of an operand are nested as it is, the sign of an exponent among them. -/
theorem scan_operand (h : IsRun cs ∨ ∃ cs' c ds, IsRun cs' ∧ (c = '+' ∨ c = '-') ∧ IsRun ds ∧
      cs = cs' ++ c :: ds) :
    n.depthsAlong cs = List.replicate cs.length n.operand.depth ∧ n.after cs = n.operand := by
  have hrun {n : Nesting} {cs : List Char} (h : IsRun cs) :
      n.depthsAlong cs = List.replicate cs.length n.operand.depth ∧ n.after cs = n.operand := by
    refine ⟨(scan_run h.all).1, ?_⟩
    obtain ⟨c, cs, rfl⟩ := List.exists_cons_of_ne_nil h.ne_nil
    obtain ⟨hc, hcs⟩ := List.forall_mem_cons.mp h.all
    rw [after, List.foldl_cons, next_of_isOperandChar hc]
    exact (scan_run hcs).2
  rcases h with h | ⟨cs, c, ds, hcs, hc, hds, rfl⟩
  · exact hrun h
  · have hnext : n.operand.next c = n.operand.operator := by
      rcases hc with rfl | rfl <;> rfl
    have hsigned : n.operand.after (c :: ds) = n.operand.operator.after ds := by
      rw [after, List.foldl_cons, hnext]
      rfl
    rw [depthsAlong_append, after_append, (hrun hcs).1, (hrun hcs).2, depthsAlong, hnext, hsigned,
      (hrun hds).1, (hrun hds).2, List.length_append, List.length_cons, List.replicate_add,
      List.replicate_succ]
    exact ⟨rfl, rfl⟩

/-- A symbol is one character, or one that is written twice. -/
theorem next_symbol (n : Nesting) (s : Symbol) :
    ∃ c, n.next c = n.read (.symbol s) ∧
      (s.spelling = [c] ∨
        s.spelling = [c, c] ∧ (n.read (.symbol s)).next c = n.read (.symbol s)) := by
  obtain ⟨enclosing, outer, pending, expectsOperand⟩ := n
  cases s with
  | plus => exact ⟨'+', by cases expectsOperand <;> rfl, .inl rfl⟩
  | minus => exact ⟨'-', by cases expectsOperand <;> rfl, .inl rfl⟩
  | star => exact ⟨'*', by cases expectsOperand <;> rfl, .inl rfl⟩
  | slash => exact ⟨'/', by cases expectsOperand <;> rfl, .inl rfl⟩
  | ampersands =>
    cases expectsOperand
    · exact ⟨'&', rfl, .inr ⟨rfl, rfl⟩⟩
    · exact ⟨'&', rfl, .inr ⟨rfl, rfl⟩⟩
  | bars =>
    cases expectsOperand
    · exact ⟨'|', rfl, .inr ⟨rfl, rfl⟩⟩
    · exact ⟨'|', rfl, .inr ⟨rfl, rfl⟩⟩
  | bang => exact ⟨'!', by cases expectsOperand <;> rfl, .inl rfl⟩
  | opening => exact ⟨'(', rfl, .inl rfl⟩
  | closing => exact ⟨')', rfl, .inl rfl⟩

/-- The characters of a token are nested as it is. -/
theorem scan_token {t : Token Numeral} (ht : t.IsLexeme) (n : Nesting) :
    n.depthsAlong t.spelling = List.replicate t.spelling.length (n.read t).depth ∧
      n.after t.spelling = n.read t := by
  cases t with
  | literal x => exact scan_operand (run_of_numeral ht)
  | name text => exact scan_operand (.inl (isRun_name ht))
  | symbol s =>
    obtain ⟨c, hnext, hs | ⟨hs, hagain⟩⟩ := n.next_symbol s
    · simp [Token.spelling, hs, depthsAlong, after, hnext]
    · simp [Token.spelling, hs, depthsAlong, after, hnext, hagain, List.replicate_succ]
  | stray c => exact absurd ht id

end Scan

def readAll (n : Nesting) (ts : List (Token Numeral)) : Nesting := ts.foldl read n

theorem readAll_cons (n : Nesting) (t : Token Numeral) (ts : List (Token Numeral)) :
    n.readAll (t :: ts) = (n.read t).readAll ts := rfl

theorem readAll_append (n : Nesting) (ts ts' : List (Token Numeral)) :
    n.readAll (ts ++ ts') = (n.readAll ts).readAll ts' := List.foldl_append

theorem depths_append (n : Nesting) (ts ts' : List (Token Numeral)) :
    n.depths (ts ++ ts') = n.depths ts ++ (n.readAll ts).depths ts' := by
  induction ts generalizing n with
  | nil => rfl
  | cons t ts ih => rw [List.cons_append, depths, depths, ih]; rfl

/-- Too deep a character belongs to too deep a token. -/
theorem tooDeepAt?_eq_none_iff {cs : List Char} {ts : List (Token Numeral)} (h : Cut cs ts)
    {n : Nesting} (hn : n.depth ≤ maxNesting) (p : Position) :
    n.tooDeepAt? p cs = none ↔ ∀ depth ∈ n.depths ts, depth ≤ maxNesting := by
  rw [tooDeepAt?_eq_none]
  induction h generalizing n with
  | nil => rfl
  | separator hc h ih =>
    rw [depthsAlong, next_of_isSeparator hc, List.forall_mem_cons, ih hn]
    exact and_iff_right hn
  | @token t rest ts ht h ih =>
    obtain ⟨hdepths, hafter⟩ := scan_token ht.isLexeme n
    have hne : t.spelling.length ≠ 0 :=
      (List.length_pos_iff.mpr (Token.spelling_ne_nil ht.isLexeme)).ne'
    rw [depthsAlong_append, hdepths, hafter, List.forall_mem_append, depths, List.forall_mem_cons]
    simp only [List.mem_replicate, hne, ne_eq, not_false_eq_true, true_and, forall_eq]
    exact and_congr_right fun hread => ih hread

theorem depth_openGroup (n : Nesting) : n.openGroup.depth = n.depth + 1 := rfl

theorem depth_operand_le (n : Nesting) : n.operand.depth ≤ n.depth :=
  Nat.add_le_add_left (Nat.zero_le n.pending) n.outer

theorem depth_operand {n : Nesting} (h : n.pending = 0) : n.operand.depth = n.depth := by
  rw [depth, depth, h]
  rfl

theorem depth_closeGroup_le (n : Nesting) : n.closeGroup.depth ≤ n.depth := by
  unfold closeGroup depth
  split
  · exact (Nat.sub_le _ _).trans (Nat.le_add_right _ _)
  · exact Nat.le_add_right _ _

theorem closeGroup_openGroup (n : Nesting) : n.openGroup.operand.closeGroup = n.operand := by
  simp [openGroup, operand, closeGroup]

theorem read_prefix {s : Symbol} {op : Operator} (hs : s.prefixOperator? = some op) {n : Nesting}
    (hn : n.expectsOperand = true) :
    n.read (.symbol s) = { n with pending := n.pending + 1 } := by
  cases s <;> cases hs <;> simp [read, hn, Symbol.prefixOperator?]

theorem read_infix {s : Symbol} {op : Operator} (hs : s.infixOperator? = some op) (n : Nesting) :
    n.operand.read (.symbol s) = n.operand.operator := by
  cases s <;> cases hs <;> rfl

/-- A phrase leaves the nesting around it as it was. -/
theorem readAll_tokens {q : Nat} (d : Derivation Numeral q) {n : Nesting}
    (hn : n.expectsOperand = true) : n.readAll d.tokens = n.operand := by
  induction d generalizing n with
  | literal x => rfl
  | name text => rfl
  | group inner ih =>
    rw [Derivation.tokens, readAll_cons, read, readAll_append, ih rfl]
    exact n.closeGroup_openGroup
  | prefixed s op hs operand ih =>
    rw [Derivation.tokens, readAll_cons, read_prefix hs hn]
    exact ih (n := { n with pending := n.pending + 1 }) hn
  | infixed s op hs hp left right ihLeft ihRight =>
    rw [Derivation.tokens, readAll_append, ihLeft hn, readAll_cons, read_infix hs]
    exact ihRight rfl
  | tighter hp inner ih => exact ih hn

/-- Where an operand is due, a phrase is scanned as deep as it is. -/
theorem depths_tokens {q : Nat} (d : Derivation Numeral q) {n : Nesting}
    (hn : n.expectsOperand = true) : n.depths d.tokens = d.depths n.outer n.pending := by
  induction d generalizing n with
  | literal x => rfl
  | name text => rfl
  | group inner ih =>
    rw [Derivation.tokens, depths, read, depths_append, ih rfl, readAll_tokens inner rfl, depths,
      read, closeGroup_openGroup]
    rfl
  | prefixed s op hs operand ih =>
    rw [Derivation.tokens, depths, read_prefix hs hn,
      ih (n := { n with pending := n.pending + 1 }) hn]
    rfl
  | infixed s op hs hp left right ihLeft ihRight =>
    rw [Derivation.tokens, depths_append, ihLeft hn, readAll_tokens left hn, depths, read_infix hs,
      ihRight rfl]
    rfl
  | tighter hp inner ih => exact ih hn

end Nesting

/-- The scan for nesting accepts a sentence exactly if its derivation is within the limit. -/
theorem Derivation.withinLimit_iff {text : String} {d : Derivation Numeral 0}
    (h : Cut text.toList d.tokens) (p : Position) :
    Nesting.start.tooDeepAt? p text.toList = none ↔ d.WithinLimit := by
  rw [Nesting.tooDeepAt?_eq_none_iff h (Nat.zero_le _), Nesting.depths_tokens d rfl]
  rfl

end DecisionDiagrams
