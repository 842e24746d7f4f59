import DecisionDiagrams.Proofs.Grammar.Climbing
import DecisionDiagrams.Proofs.Grammar.Lexeme

/-! Rules that fail where they begin are put down there one after the other. The rules for signs
match their symbols and fail in front of anything else. -/
namespace DecisionDiagrams

open Peg

variable {atomic : Bool} {p : Position} {cs rest : List Char} {a : Attempts}

namespace Attempts

def fail (a : Attempts) (p : Position) (r : Rule) : Attempts := a.record a p r

def failAll (a : Attempts) (p : Position) (rs : List Rule) : Attempts :=
  rs.foldl (fun a r => a.fail p r) a

structure Fresh (a : Attempts) (p : Position) : Prop where
  le : a.position ≤ p
  rulesAt : a.rulesAt p = []

theorem fresh_of_lt (h : a.position < p) : a.Fresh p := ⟨h.le, if_neg h.ne⟩

theorem fail_self (p : Position) (rs : List Rule) (r : Rule) :
    (⟨p, rs⟩ : Attempts).fail p r = ⟨p, rs ++ [r]⟩ := by
  simp [fail, record, Attempts.rulesAt]

theorem fail_of_lt (h : p < a.position) (r : Rule) : a.fail p r = a := by
  simp [fail, record, h.ne', h.asymm]

theorem Fresh.fail (h : a.Fresh p) (r : Rule) : a.fail p r = ⟨p, [r]⟩ := by
  rcases h.le.lt_or_eq with hlt | rfl
  · simp [Attempts.fail, record, hlt.ne, hlt]
  · simpa [Attempts.fail, record, Attempts.rulesAt] using h.rulesAt

theorem failAll_self (p : Position) (rs rs' : List Rule) :
    (⟨p, rs⟩ : Attempts).failAll p rs' = ⟨p, rs ++ rs'⟩ := by
  induction rs' generalizing rs with
  | nil => simp [failAll]
  | cons r rs' ih =>
    rw [failAll, List.foldl_cons, fail_self]
    exact (ih _).trans (by simp)

theorem Fresh.failAll (h : a.Fresh p) (r : Rule) (rs : List Rule) :
    a.failAll p (r :: rs) = ⟨p, r :: rs⟩ := by
  rw [Attempts.failAll, List.foldl_cons, h.fail]
  exact failAll_self p [r] rs

theorem position_fail_le (h : a.position ≤ p) (r : Rule) : (a.fail p r).position ≤ p := by
  rcases h.lt_or_eq with hlt | rfl
  · exact (congrArg position ((fresh_of_lt hlt).fail r)).le
  · exact (congrArg position (fail_self a.position a.rules r)).le

/-- What fails further on within a rule stands for the rule. -/
theorem record_of_lt (old : Attempts) (h : p < a.position) (r : Rule) :
    old.record a p r = a := by
  simp [record, Attempts.rulesAt, h.ne', h.asymm]

/-- A rule stands for several rules that failed where it began. -/
theorem Fresh.record {rs : List Rule} (h : a.Fresh p) (hrs : 1 < rs.length) (r : Rule) :
    a.record ⟨p, rs⟩ p r = ⟨p, [r]⟩ := by
  have hlength : rs.length ≠ 1 := hrs.ne'
  rw [Attempts.record, h.rulesAt]
  simp [Attempts.rulesAt, hlength]

end Attempts

/-- A text goes on with one symbol at most. -/
theorem Symbol.eq_of_isPrefix {s s' : Symbol} (h : s.spelling ++ rest = cs)
    (h' : s'.spelling <+: cs) : s' = s := by
  obtain ⟨rest', rfl⟩ := h'
  have hscan (s : Symbol) (rest : List Char) : scan? (s.spelling ++ rest) = some (s, rest) := by
    cases s <;> rfl
  exact congrArg Prod.fst (Option.some.inj ((hscan s' rest').symm.trans (h ▸ hscan s rest)))

namespace Symbol

def prefixSign? (s : Symbol) : Option PrefixSign :=
  s.prefixOperator?.attach.map fun op => ⟨s, op.1, op.2⟩

def infixSign? (s : Symbol) : Option InfixSign :=
  s.infixOperator?.attach.map fun op => ⟨s, op.1, op.2⟩

end Symbol

namespace Rule

def symbol? : Rule → Option Symbol
  | .neg => some .minus
  | .not => some .bang
  | .add => some .plus
  | .subtract => some .minus
  | .multiply => some .star
  | .divide => some .slash
  | .and => some .ampersands
  | .or => some .bars
  | _ => none

def prefixSign? : Rule → Option PrefixSign
  | .neg => Symbol.minus.prefixSign?
  | .not => Symbol.bang.prefixSign?
  | _ => none

def infixSign? : Rule → Option InfixSign
  | .add => Symbol.plus.infixSign?
  | .subtract => Symbol.minus.infixSign?
  | .multiply => Symbol.star.infixSign?
  | .divide => Symbol.slash.infixSign?
  | .and => Symbol.ampersands.infixSign?
  | .or => Symbol.bars.infixSign?
  | _ => none

def prefixRules : List Rule := [.neg, .not]

def infixRules : List Rule := [.add, .subtract, .multiply, .divide, .and, .or]

/-- The rules stand for the signs of one kind, each for one of them. -/
structure Signs {σ : Type} (rs : List Rule) (sign? : Rule → Option σ) (symbol : σ → Symbol) :
    Prop where
  isSome : ∀ r ∈ rs, (sign? r).isSome
  symbol? : ∀ {r sign}, sign? r = some sign → r.symbol? = some (symbol sign)
  injective : Function.Injective symbol
  exists_rule : ∀ sign, ∃ r ∈ rs, r.symbol? = some (symbol sign)

theorem prefixRules_signs : Signs prefixRules prefixSign? PrefixSign.symbol where
  isSome := by decide
  symbol? {r sign} h := by cases r <;> cases h <;> rfl
  injective := by
    rintro ⟨s, op, hs⟩ ⟨s', op', hs'⟩ h
    cases h
    cases hs.symm.trans hs'
    rfl
  exists_rule := by
    rintro ⟨s, op, hs⟩
    cases s <;> cases hs <;> decide

theorem infixRules_signs : Signs infixRules infixSign? InfixSign.symbol where
  isSome := by decide
  symbol? {r sign} h := by cases r <;> cases h <;> rfl
  injective := by
    rintro ⟨s, op, hs⟩ ⟨s', op', hs'⟩ h
    cases h
    cases hs.symm.trans hs'
    rfl
  exists_rule := by
    rintro ⟨s, op, hs⟩
    cases s <;> cases hs <;> decide

end Rule

namespace Runs

theorem call_silent {r : Rule} (hr : r.isSilent = true) {s : State} {o : Outcome}
    (h : Runs (atomic || r.isAtomic) r.body s o) : Runs atomic (.call r) s o := by
  cases o with
  | matched s' ps => simpa [Rule.pairs, hr] using Runs.call h
  | failed a => simpa [Rule.attempts, hr] using Runs.call_failed h

/-- A rule that is not silent leaves what it was matched with. -/
theorem call_pair {r : Rule} (hr : r.isSilent = false) {w : List Char} (hw : w ++ rest = cs)
    {q : Position} {a' : Attempts} {ps : List Pair}
    (h : Runs r.isAtomic r.body ⟨p, cs, a⟩ (.matched ⟨q, rest, a'⟩ ps)) :
    Runs false (.call r) ⟨p, cs, a⟩ (.matched ⟨q, rest, a'⟩ [⟨r, p, w, ps⟩]) := by
  subst hw
  have hcall : Runs false (.call r) _ _ := .call h
  simpa [Rule.pairs, hr] using hcall

theorem call_fail {r : Rule} (hr : r.isSilent = false)
    (h : Runs r.isAtomic r.body ⟨p, cs, a⟩ (.failed a)) :
    Runs false (.call r) ⟨p, cs, a⟩ (.failed (a.fail p r)) := by
  have hcall : Runs false (.call r) _ _ := .call_failed h
  simpa [Rule.attempts, hr, Attempts.fail] using hcall

/-- The rule for a sign matches its symbol, and nothing else. -/
theorem sign {r : Rule} {s : Symbol} (hr : r.symbol? = some s) (h : s.spelling ++ rest = cs)
    (p : Position) (a : Attempts) :
    Runs false (.call r) ⟨p, cs, a⟩
      (.matched ⟨p.afterAll s.spelling, rest, a⟩ [⟨r, p, s.spelling, []⟩]) := by
  cases r <;> cases hr <;> exact call_pair rfl h (word h p a)

theorem sign_failed {r : Rule} {s : Symbol} (hr : r.symbol? = some s) (hs : ¬s.spelling <+: cs)
    (a : Attempts) : Runs false (.call r) ⟨p, cs, a⟩ (.failed (a.fail p r)) := by
  cases r <;> cases hr <;> exact call_fail rfl (word_failed hs)

theorem oneOf_failed {r : Rule} {rs : List Rule}
    (h : ∀ r' ∈ r :: rs, ∃ s, r'.symbol? = some s ∧ ¬s.spelling <+: cs) (a : Attempts) :
    Runs false (oneOf r rs) ⟨p, cs, a⟩ (.failed (a.failAll p (r :: rs))) := by
  induction rs generalizing r a with
  | nil =>
    obtain ⟨s, hr, hs⟩ := h r List.mem_cons_self
    exact sign_failed hr hs a
  | cons r₂ rs ih =>
    obtain ⟨⟨s, hr, hs⟩, hrs⟩ := List.forall_mem_cons.mp h
    exact .alt_second (sign_failed hr hs a) (ih hrs _)

/-- Of several signs that one is matched whose symbol stands there. -/
theorem oneOf_symbol (r : Rule) (rs : List Rule) {s : Symbol}
    (hall : ∀ r' ∈ r :: rs, r'.symbol?.isSome) (hs : ∃ r' ∈ r :: rs, r'.symbol? = some s)
    (h : s.spelling ++ rest = cs) (ha : a.position ≤ p) :
    ∃ r' ∈ r :: rs, r'.symbol? = some s ∧ ∃ a', a'.position ≤ p ∧
      Runs false (oneOf r rs) ⟨p, cs, a⟩
        (.matched ⟨p.afterAll s.spelling, rest, a'⟩ [⟨r', p, s.spelling, []⟩]) := by
  induction rs generalizing r a with
  | nil =>
    obtain ⟨r', hmem, hr'⟩ := hs
    obtain rfl := List.mem_singleton.mp hmem
    exact ⟨r', hmem, hr', a, ha, sign hr' h p a⟩
  | cons r₂ rs ih =>
    by_cases hr : r.symbol? = some s
    · exact ⟨r, List.mem_cons_self, hr, a, ha, .alt_first (sign hr h p a)⟩
    · obtain ⟨hsome, hrs⟩ := List.forall_mem_cons.mp hall
      obtain ⟨s', hs'⟩ := Option.isSome_iff_exists.mp hsome
      have hne : ¬s'.spelling <+: cs := fun hprefix =>
        hr (hs'.trans (congrArg some (Symbol.eq_of_isPrefix h hprefix)))
      obtain ⟨r', hmem, hr', a', ha', hruns⟩ :=
        ih r₂ hrs (by simpa [hr] using hs) (Attempts.position_fail_le ha r)
      exact ⟨r', List.mem_cons_of_mem r hmem, hr', a', ha',
        .alt_second (sign_failed hs' hne a) hruns⟩

section Signs

variable {σ : Type} {sign? : Rule → Option σ} {symbol : σ → Symbol} {r : Rule} {rs : List Rule}

/-- A sign is matched by its own rule. -/
theorem oneOf_sign (hsigns : Rule.Signs (r :: rs) sign? symbol) {s : σ}
    (h : (symbol s).spelling ++ rest = cs) (ha : a.position ≤ p) :
    ∃ r' a', sign? r' = some s ∧ a'.position ≤ p ∧
      Runs false (oneOf r rs) ⟨p, cs, a⟩
        (.matched ⟨p.afterAll (symbol s).spelling, rest, a'⟩
          [⟨r', p, (symbol s).spelling, []⟩]) := by
  have hall (r' : Rule) (hr' : r' ∈ r :: rs) : r'.symbol?.isSome := by
    obtain ⟨s', hs'⟩ := Option.isSome_iff_exists.mp (hsigns.isSome r' hr')
    exact Option.isSome_of_eq_some (hsigns.symbol? hs')
  obtain ⟨r', hmem, hr', a', ha', hruns⟩ := oneOf_symbol r rs hall (hsigns.exists_rule s) h ha
  obtain ⟨s', hs'⟩ := Option.isSome_iff_exists.mp (hsigns.isSome r' hmem)
  obtain rfl : s' = s :=
    hsigns.injective (Option.some.inj ((hsigns.symbol? hs').symm.trans hr'))
  exact ⟨r', a', hs', ha', hruns⟩

theorem oneOf_sign_failed (hsigns : Rule.Signs (r :: rs) sign? symbol)
    (h : ∀ s, ¬(symbol s).spelling <+: cs) (a : Attempts) :
    Runs false (oneOf r rs) ⟨p, cs, a⟩ (.failed (a.failAll p (r :: rs))) := by
  refine oneOf_failed (fun r' hr' => ?_) a
  obtain ⟨s, hs⟩ := Option.isSome_iff_exists.mp (hsigns.isSome r' hr')
  exact ⟨symbol s, hsigns.symbol? hs, h s⟩

end Signs

theorem prefixSign {sign : PrefixSign} (h : sign.symbol.spelling ++ rest = cs)
    (ha : a.position ≤ p) :
    ∃ r a', r.prefixSign? = some sign ∧ a'.position ≤ p ∧
      Runs false (.call .prefixSign) ⟨p, cs, a⟩
        (.matched ⟨p.afterAll sign.symbol.spelling, rest, a'⟩
          [⟨r, p, sign.symbol.spelling, []⟩]) := by
  obtain ⟨r, a', hr, ha', hruns⟩ := oneOf_sign Rule.prefixRules_signs h ha
  exact ⟨r, a', hr, ha', call_silent rfl hruns⟩

theorem prefixSign_failed (h : ∀ sign : PrefixSign, ¬sign.symbol.spelling <+: cs)
    (a : Attempts) :
    Runs false (.call .prefixSign) ⟨p, cs, a⟩ (.failed (a.failAll p [.neg, .not])) :=
  call_silent rfl (oneOf_sign_failed Rule.prefixRules_signs h a)

theorem infixSign {sign : InfixSign} (h : sign.symbol.spelling ++ rest = cs)
    (ha : a.position ≤ p) :
    ∃ r a', r.infixSign? = some sign ∧ a'.position ≤ p ∧
      Runs false (.call .infixSign) ⟨p, cs, a⟩
        (.matched ⟨p.afterAll sign.symbol.spelling, rest, a'⟩
          [⟨r, p, sign.symbol.spelling, []⟩]) := by
  obtain ⟨r, a', hr, ha', hruns⟩ := oneOf_sign Rule.infixRules_signs h ha
  exact ⟨r, a', hr, ha', call_silent rfl hruns⟩

theorem infixSign_failed (h : ∀ sign : InfixSign, ¬sign.symbol.spelling <+: cs)
    (a : Attempts) :
    Runs false (.call .infixSign) ⟨p, cs, a⟩ (.failed (a.failAll p Rule.infixRules)) :=
  call_silent rfl (oneOf_sign_failed Rule.infixRules_signs h a)

end Runs

end DecisionDiagrams
