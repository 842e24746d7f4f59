import DecisionDiagrams.Grammar.Rules

/-! The rules for literals and names match what scanning finds. -/
namespace DecisionDiagrams

open Peg

variable {atomic : Bool} {p : Position} {cs rest : List Char} {a : Attempts}

namespace Runs

theorem word {w : List Char} (h : w ++ rest = cs) (p : Position) (a : Attempts) :
    Runs atomic (word w) ⟨p, cs, a⟩ (.matched ⟨p.afterAll w, rest, a⟩ []) := by
  subst h
  have h : (Terminal.word w).consumed? ⟨p, w ++ rest, a⟩ = some w :=
    if_pos (List.prefix_append w rest)
  simpa [State.consume, Peg.word] using Runs.terminal h

theorem word_failed {w : List Char} (h : ¬w <+: cs) :
    Runs atomic (Peg.word w) ⟨p, cs, a⟩ (.failed a) :=
  .terminal_failed (if_neg h)

theorem one {accepts : Char → Bool} {c : Char} (h : accepts c = true) (rest : List Char)
    (p : Position) (a : Attempts) :
    Runs atomic (Peg.one accepts) ⟨p, c :: rest, a⟩ (.matched ⟨p.after c, rest, a⟩ []) := by
  have hc : (Terminal.one accepts).consumed? ⟨p, c :: rest, a⟩ = some [c] := by
    simp [Terminal.consumed?, Option.filter, h]
  exact .terminal hc

theorem one_failed {accepts : Char → Bool} (h : ∀ c ∈ cs.head?, accepts c = false) :
    Runs atomic (Peg.one accepts) ⟨p, cs, a⟩ (.failed a) := by
  refine .terminal_failed ?_
  cases cs with
  | nil => rfl
  | cons c cs => simp [Terminal.consumed?, Option.filter, h c rfl]

/-- Within a lexeme a repetition takes all characters that it can. -/
theorem rounds_one (accepts : Char → Bool) (again : Bool) (cs : List Char) (p : Position)
    (a : Attempts) :
    Runs true (.rounds again (Peg.one accepts)) ⟨p, cs, a⟩
      (.matched ⟨p.afterAll (cs.takeWhile accepts), cs.dropWhile accepts, a⟩ []) := by
  induction cs generalizing again p with
  | nil =>
    exact .rounds_end (by simpa [State.skipIf] using one_failed (by simp))
  | cons c cs ih =>
    by_cases hc : accepts c = true
    · rw [List.takeWhile_cons_of_pos hc, List.dropWhile_cons_of_pos hc]
      have hfirst : Runs true (Peg.one accepts) ((⟨p, c :: cs, a⟩ : State).skipIf (again && !true))
          (.matched ⟨p.after c, cs, a⟩ []) := by
        simpa [State.skipIf] using one hc cs p a
      exact .rounds_next hfirst (ih true (p.after c))
    · rw [List.takeWhile_cons_of_neg hc, List.dropWhile_cons_of_neg hc]
      refine .rounds_end ?_
      simpa [State.skipIf] using one_failed (p := p) (a := a) (by simpa using hc)

theorem plus_one {accepts : Char → Bool} (h : cs.takeWhile accepts ≠ []) :
    Runs true (plus (Peg.one accepts)) ⟨p, cs, a⟩
      (.matched ⟨p.afterAll (cs.takeWhile accepts), cs.dropWhile accepts, a⟩ []) := by
  cases cs with
  | nil => exact absurd rfl h
  | cons c cs =>
    have hc : accepts c = true := by
      by_contra hc
      exact h (List.takeWhile_cons_of_neg hc)
    rw [List.takeWhile_cons_of_pos hc, List.dropWhile_cons_of_pos hc]
    exact .seq (one hc cs p a) (rounds_one accepts false cs (p.after c) a)

theorem plus_one_failed {accepts : Char → Bool} (h : cs.takeWhile accepts = []) :
    Runs true (plus (Peg.one accepts)) ⟨p, cs, a⟩ (.failed a) := by
  refine .seq_first_failed (one_failed ?_)
  intro c hc
  obtain ⟨cs, rfl⟩ := List.head?_eq_some_iff.mp hc
  by_contra hc
  rw [Bool.not_eq_false] at hc
  cases (List.takeWhile_cons_of_pos hc).symm.trans h

theorem opt {e : Peg} {s s' : State} {ps : List Pair} (h : Runs atomic e s (.matched s' ps)) :
    Runs atomic (opt e) s (.matched s' ps) := .alt_first h

theorem opt_failed {e : Peg} {a' : Attempts} (h : Runs atomic e ⟨p, cs, a⟩ (.failed a')) :
    Runs atomic (Peg.opt e) ⟨p, cs, a⟩ (.matched ⟨p, cs, a'⟩ []) :=
  .alt_second h (word rfl p a')

/-- Within a lexeme nothing stands between two parts. -/
theorem seq_atomic {e f : Peg} {s s₁ s₂ : State} (he : Runs true e s (.matched s₁ []))
    (hf : Runs true f s₁ (.matched s₂ [])) : Runs true (.seq e f) s (.matched s₂ []) :=
  .seq he hf

theorem exponent_sign (cs : List Char) (p : Position) (a : Attempts) :
    let sign := cs.head?.filter fun c => c = '+' || c = '-'
    Runs true (Peg.opt (.alt (Peg.word ['+']) (Peg.word ['-']))) ⟨p, cs, a⟩
      (.matched ⟨p.afterAll sign.toList, if sign.isSome then cs.tail else cs, a⟩ []) := by
  have hfailed (w : Char) (h : ∀ c ∈ cs.head?, c ≠ w) :
      Runs true (Peg.word [w]) ⟨p, cs, a⟩ (.failed a) := by
    refine word_failed ?_
    rintro ⟨rest, rfl⟩
    exact h w rfl rfl
  by_cases hplus : cs.head? = some '+'
  · obtain ⟨cs, rfl⟩ := List.head?_eq_some_iff.mp hplus
    exact opt (.alt_first (word rfl p a))
  by_cases hminus : cs.head? = some '-'
  · obtain ⟨cs, rfl⟩ := List.head?_eq_some_iff.mp hminus
    exact opt (.alt_second (hfailed '+' (by simp)) (word rfl p a))
  have hnone : cs.head?.filter (fun c => c = '+' || c = '-') = none := by
    cases cs with
    | nil => rfl
    | cons c cs => simp_all [Option.filter]
  simp only [hnone]
  refine opt_failed (.alt_second (hfailed '+' ?_) (hfailed '-' ?_))
  · rintro c hc rfl
    exact hplus hc
  · rintro c hc rfl
    exact hminus hc

/-- An exponent is matched where one is scanned. -/
theorem exponent {e : Exponent} (h : Exponent.scan? cs = some (e, rest)) (p : Position)
    (a : Attempts) :
    Runs true Peg.exponent ⟨p, cs, a⟩ (.matched ⟨p.afterAll e.spelling, rest, a⟩ []) := by
  cases cs with
  | nil => cases h
  | cons mark cs =>
    simp only [Exponent.scan?, Option.ite_none_right_eq_some, Option.ite_none_left_eq_some] at h
    obtain ⟨hmark, hdigits, h⟩ := h
    cases h
    have htail := seq_atomic (exponent_sign cs (p.after mark) a) (plus_one hdigits)
    rw [← Position.afterAll_append] at htail
    exact seq_atomic (one (by simpa using hmark) cs p a) htail

theorem exponent_failed (h : Exponent.scan? cs = none) :
    Runs true Peg.exponent ⟨p, cs, a⟩ (.failed a) := by
  cases cs with
  | nil => exact .seq_first_failed (one_failed (by simp))
  | cons mark cs =>
    by_cases hmark : mark = 'e' ∨ mark = 'E'
    · simp only [Exponent.scan?, if_pos hmark, ite_eq_left_iff, reduceCtorEq, imp_false,
        not_not] at h
      have htail := Runs.seq_second_failed (exponent_sign cs (p.after mark) a) (plus_one_failed h)
      exact .seq_second_failed (one (by simpa using hmark) cs p a) htail
    · exact .seq_first_failed (one_failed (by simpa using hmark))

/-- The exponent that follows a numeral, if one does. -/
theorem withExponent {n : Numeral} (hn : n.exponent = none) (rest : List Char) (p : Position)
    (a : Attempts) :
    Runs true (Peg.opt Peg.exponent) ⟨p.afterAll n.spelling, rest, a⟩
      (.matched ⟨p.afterAll (n.withExponent rest).1.spelling, (n.withExponent rest).2, a⟩ []) := by
  unfold Numeral.withExponent
  split
  next e rest' he =>
    have hspelling : ({ n with exponent := some e } : Numeral).spelling =
        n.spelling ++ e.spelling := by simp [Numeral.spelling, hn]
    rw [hspelling, Position.afterAll_append]
    exact opt (exponent he _ a)
  next he => exact opt_failed (exponent_failed he)

/-- The part of a numeral in front of its exponent. -/
theorem mantissa {whole : List Char} (hwhole : cs.takeWhile Char.isDigit = whole) (p : Position)
    (a : Attempts) {tail : List Char} (hpoint : cs.dropWhile Char.isDigit = '.' :: tail)
    (hne : ¬(whole = [] ∧ tail.takeWhile Char.isDigit = [])) :
    Runs true Peg.mantissa ⟨p, cs, a⟩
      (.matched ⟨p.afterAll (whole ++ '.' :: tail.takeWhile Char.isDigit),
        tail.dropWhile Char.isDigit, a⟩ []) := by
  have hpoint' (p : Position) : Runs true (Peg.word ['.']) ⟨p, '.' :: tail, a⟩
    (.matched ⟨p.after '.', tail, a⟩ []) := word rfl p a
  by_cases hdigits : whole = []
  · subst hdigits
    obtain rfl : cs = '.' :: tail := by
      rw [← List.takeWhile_append_dropWhile (p := Char.isDigit) (l := cs), hwhole, hpoint,
        List.nil_append]
    refine .alt_second (.seq_first_failed (plus_one_failed hwhole)) ?_
    exact seq_atomic (hpoint' p) (plus_one fun h => hne ⟨rfl, h⟩)
  · have hfirst := plus_one (p := p) (a := a) (hwhole ▸ hdigits)
    rw [hwhole, hpoint] at hfirst
    rw [Position.afterAll_append]
    exact .alt_first (seq_atomic hfirst (opt (seq_atomic (hpoint' _)
      (rounds_one Char.isDigit false tail _ a))))

theorem mantissa_whole (hpoint : ∀ tail, cs.dropWhile Char.isDigit ≠ '.' :: tail)
    (hne : cs.takeWhile Char.isDigit ≠ []) (p : Position) (a : Attempts) :
    Runs true Peg.mantissa ⟨p, cs, a⟩
      (.matched ⟨p.afterAll (cs.takeWhile Char.isDigit), cs.dropWhile Char.isDigit, a⟩ []) := by
  have hnone : ¬['.'] <+: cs.dropWhile Char.isDigit := by
    rintro ⟨tail, htail⟩
    exact hpoint tail htail.symm
  exact .alt_first (seq_atomic (plus_one hne) (opt_failed (.seq_first_failed (word_failed hnone))))

/-- A literal is matched where a numeral is scanned. -/
theorem literal {n : Numeral} (h : Numeral.scan? cs = some (n, rest)) (p : Position)
    (a : Attempts) :
    Runs true Rule.literal.body ⟨p, cs, a⟩ (.matched ⟨p.afterAll n.spelling, rest, a⟩ []) := by
  simp only [Numeral.scan?] at h
  split at h
  next tail htail =>
    rw [Option.ite_none_left_eq_some, Option.some.injEq] at h
    obtain ⟨hne, h⟩ := h
    have hexponent := withExponent (n := ⟨cs.takeWhile Char.isDigit,
      some (tail.takeWhile Char.isDigit), none⟩) rfl (tail.dropWhile Char.isDigit) p a
    rw [h] at hexponent
    refine seq_atomic ?_ hexponent
    simpa [Numeral.spelling] using mantissa rfl p a htail hne
  next htail =>
    rw [Option.ite_none_left_eq_some, Option.some.injEq] at h
    obtain ⟨hne, h⟩ := h
    have hexponent := withExponent (n := ⟨cs.takeWhile Char.isDigit, none, none⟩) rfl
      (cs.dropWhile Char.isDigit) p a
    rw [h] at hexponent
    refine seq_atomic ?_ hexponent
    simpa [Numeral.spelling] using mantissa_whole htail hne p a

theorem literal_failed (h : Numeral.scan? cs = none) :
    Runs true Rule.literal.body ⟨p, cs, a⟩ (.failed a) := by
  simp only [Numeral.scan?] at h
  split at h
  next tail htail =>
    simp only [ite_eq_left_iff, reduceCtorEq, imp_false, not_not] at h
    obtain ⟨hwhole, hdigits⟩ := h
    obtain rfl : cs = '.' :: tail := by
      rw [← List.takeWhile_append_dropWhile (p := Char.isDigit) (l := cs), hwhole, htail,
        List.nil_append]
    refine .seq_first_failed (.alt_second (.seq_first_failed (plus_one_failed hwhole)) ?_)
    exact .seq_second_failed (word rfl p a) (plus_one_failed hdigits)
  next htail =>
    simp only [ite_eq_left_iff, reduceCtorEq, imp_false, not_not] at h
    refine .seq_first_failed (.alt_second (.seq_first_failed (plus_one_failed h)) ?_)
    refine .seq_first_failed (word_failed ?_)
    rintro ⟨tail, rfl⟩
    exact htail tail rfl

/-- A name is matched as far as it goes. -/
theorem name {c : Char} (hc : isNameStart c = true) (cs : List Char) (p : Position) (a : Attempts) :
    Runs true Rule.variable.body ⟨p, c :: cs, a⟩
      (.matched ⟨p.afterAll (c :: cs.takeWhile isNameChar), cs.dropWhile isNameChar, a⟩ []) :=
  seq_atomic (one hc cs p a) (rounds_one isNameChar false cs (p.after c) a)

theorem name_failed (h : ∀ c ∈ cs.head?, isNameStart c = false) :
    Runs true Rule.variable.body ⟨p, cs, a⟩ (.failed a) :=
  .seq_first_failed (one_failed h)

end Runs

end DecisionDiagrams
