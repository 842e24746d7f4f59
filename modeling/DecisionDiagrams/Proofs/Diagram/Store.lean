import DecisionDiagrams.Diagram.Store
import DecisionDiagrams.Proofs.Diagram.Shortcut

/-! Carrying out a call gives the result and the table of its plain expansion, because only calls
that are settled are remembered. From then on the result of the call is known. -/
namespace DecisionDiagrams

variable {α : Type} [Scalar α]

namespace Store

structure WellFormed (levels : Nat) (s : Store α) : Prop where
  table : s.table.WellFormed levels
  memo {c : Call} {d : Nat} : s.memo[c]? = some d → c.InRange s.table.size ∧ s.table.Settled c d

variable {levels : Nat} {s : Store α}

structure Keeps (levels : Nat) (s s' : Store α) : Prop where
  wellFormed : s'.WellFormed levels
  grows : s.table.Grows s'.table
  memo {c : Call} {d : Nat} : s.memo[c]? = some d → s'.memo[c]? = some d

theorem WellFormed.keeps (hs : s.WellFormed levels) : Keeps levels s s := ⟨hs, .refl _, id⟩

theorem Keeps.trans {levels' : Nat} {s' s'' : Store α} (h : Keeps levels s s')
    (h' : Keeps levels' s' s'') : Keeps levels' s s'' :=
  ⟨h'.wellFormed, h.grows.trans h'.grows, fun hmemo => h'.memo (h.memo hmemo)⟩

theorem WellFormed.with_table (hs : s.WellFormed levels) {t : Table α}
    (ht : t.WellFormed levels) (hgrows : s.table.Grows t) :
    Keeps levels s { s with table := t } where
  wellFormed.table := ht
  wellFormed.memo h := by
    obtain ⟨hc, hsettled⟩ := hs.memo h
    exact ⟨hc.mono hgrows.size_le, hsettled.grows hgrows hc⟩
  grows := hgrows
  memo := id

/-- The result of the call need not be computed again: the call is settled, and it is one on
constants or is known. -/
structure Knows (s : Store α) (c : Call) (d : Nat) : Prop where
  inRange : c.InRange s.table.size
  settled : s.table.Settled c d
  known : c.level? s.table = none ∨ Machine.known? s c = some d

/-- What is known stays known. -/
theorem Knows.keeps {s' : Store α} {c : Call} {d : Nat} (h : s.Knows c d)
    (hkeeps : s.Keeps levels s') : s'.Knows c d where
  inRange := h.inRange.mono hkeeps.grows.size_le
  settled := h.settled.grows hkeeps.grows h.inRange
  known := by
    refine h.known.imp (Call.level?_grows hkeeps.grows h.inRange).trans fun hknown => ?_
    rw [Machine.known?, Call.immediate?_grows hkeeps.grows h.inRange, Option.or_eq_some_iff]
    exact (Option.or_eq_some_iff.mp hknown).imp_right (And.imp_right hkeeps.memo)

theorem WellFormed.mono (hs : s.WellFormed levels) {levels' : Nat} (h : levels ≤ levels') :
    s.WellFormed levels' := ⟨hs.table.mono h, hs.memo⟩

variable [LawfulScalar α]

theorem initial_wellFormed (levels : Nat) : (initial : Store α).WellFormed levels where
  table := Table.initial_wellFormed levels
  memo h := by simp [initial] at h

/-- To remember a settled call forgets nothing, also if the call was remembered before. -/
theorem WellFormed.remember (hs : s.WellFormed levels) {c : Call} {d : Nat}
    (hc : c.InRange s.table.size) (hsettled : s.table.Settled c d) :
    Keeps levels s { s with memo := s.memo.insert c.key d } where
  wellFormed.table := hs.table
  wellFormed.memo {c' d'} h := by
    rw [Std.HashMap.getElem?_insert] at h
    split at h
    next hkey =>
      cases h
      rw [← beq_iff_eq.mp hkey]
      exact ⟨Call.inRange_key.mpr hc, Table.settled_key.mpr hsettled⟩
    next => exact hs.memo h
  grows := .refl _
  memo {c' d'} h := by
    rw [Std.HashMap.getElem?_insert]
    split
    next hkey =>
      have hsettled' := (hs.memo h).2
      rw [← beq_iff_eq.mp hkey, Table.settled_key] at hsettled'
      rw [hsettled.unique hs.table hsettled']
    next => exact h

end Store

namespace Machine

theorem run_of_step {m m' : Machine α} (h : m.step = .inr m') : m.run = m'.run := by
  rw [run]
  split
  next hstep => rw [h] at hstep; cases hstep
  next hstep => rw [h] at hstep; cases hstep; rfl

theorem run_of_done {m : Machine α} {r : Nat × Store α} (h : m.step = .inl r) : m.run = r := by
  rw [run]
  split
  next hstep => rw [h] at hstep; cases hstep; rfl
  next hstep => rw [h] at hstep; cases hstep

variable {levels : Nat} {s : Store α} {c : Call}

section Steps

variable (s) (frames : List Waiting)

theorem run_constant (h : c.level? s.table = none) :
    run ⟨s, .call c, frames⟩ =
      run ⟨{ s with table := (s.table.terminal (c.compute (s.table.value fun _ => false))).2 },
        .result (s.table.terminal (c.compute (s.table.value fun _ => false))).1, frames⟩ := by
  have hsplit := c.split_eq s.table
  rw [h] at hsplit
  exact run_of_step (by simp only [step, hsplit])

theorem run_known {level d : Nat} (h : c.level? s.table = some level)
    (hknown : known? s c = some d) :
    run ⟨s, .call c, frames⟩ = run ⟨s, .result d, frames⟩ := by
  have hsplit := c.split_eq s.table
  rw [h] at hsplit
  exact run_of_step (by simp only [step, hsplit, hknown])

theorem run_split {level : Nat} (h : c.level? s.table = some level)
    (hknown : known? s c = none) :
    run ⟨s, .call c, frames⟩ =
      run ⟨s, .call (c.cofactor s.table level false),
        .low c.key level (c.cofactor s.table level true) :: frames⟩ := by
  have hsplit := c.split_eq s.table
  rw [h] at hsplit
  exact run_of_step (by simp only [step, hsplit, hknown])

theorem run_low (d level : Nat) (key next : Call) :
    run ⟨s, .result d, .low key level next :: frames⟩ =
      run ⟨s, .call next, .high key level d :: frames⟩ := run_of_step rfl

theorem run_high (d level done : Nat) (key : Call) :
    run ⟨s, .result d, .high key level done :: frames⟩ =
      run ⟨⟨(s.table.branch level done d).2,
          s.memo.insert key (s.table.branch level done d).1⟩,
        .result (s.table.branch level done d).1, frames⟩ := run_of_step rfl

end Steps

variable [LawfulScalar α]

theorem settled_of_known? (hs : s.WellFormed levels) (hc : c.InRange s.table.size) {d : Nat}
    (h : known? s c = some d) : s.table.Settled c d := by
  rcases Option.or_eq_some_iff.mp h with h | ⟨-, h⟩
  · exact hs.table.settled_of_immediate? hc h
  · exact Table.settled_key.mp (hs.memo h).2

theorem run_knows (hs : s.WellFormed levels) {d : Nat} (h : s.Knows c d) (frames : List Waiting) :
    run ⟨s, .call c, frames⟩ = run ⟨s, .result d, frames⟩ := by
  cases hlevel : c.level? s.table with
  | none =>
    have hterminal := (Table.expand_constant hlevel).symm.trans (h.settled.expand_eq hs.table)
    rw [run_constant s frames hlevel, hterminal]
  | some level => exact run_known s frames hlevel (h.known.resolve_left (by simp [hlevel]))

/-- A call under way comes to the result of its plain expansion, whatever waits for it, and from
then on the result is known. -/
theorem run_call (hs : s.WellFormed levels) (hc : c.InRange s.table.size) :
    ∃ d s', s.table.expand c = (d, s'.table) ∧ s.Keeps levels s' ∧ s'.Knows c d ∧
      ∀ frames, run ⟨s, .call c, frames⟩ = run ⟨s', .result d, frames⟩ := by
  induction hrank : c.rank using Nat.strongRecOn generalizing c s with
  | ind rank ih =>
    have hsettles := hs.table.expand hc
    have hrange := hc.mono hsettles.grows.size_le
    cases hlevel : c.level? s.table with
    | none =>
      have hkeeps := hs.with_table hsettles.wellFormed hsettles.grows
      have hlevel' := (Call.level?_grows hsettles.grows hc).trans hlevel
      rw [Table.expand_constant hlevel] at hsettles hkeeps hrange hlevel'
      exact ⟨_, _, Table.expand_constant hlevel, hkeeps, ⟨hrange, hsettles.settled, .inl hlevel'⟩,
        fun frames => run_constant s frames hlevel⟩
    | some level =>
      cases hknown : known? s c with
      | some d =>
        have hsettled := settled_of_known? hs hc hknown
        exact ⟨d, s, hsettled.expand_eq hs.table, hs.keeps, ⟨hc, hsettled, .inr hknown⟩,
          fun frames => run_known s frames hlevel hknown⟩
      | none =>
        have hcLow := hc.cofactor (t := s.table) level false
        obtain ⟨low, s₁, hlow, hs₁, -, hrunLow⟩ :=
          ih _ (hrank ▸ Call.rank_cofactor_lt hlevel false) hs hcLow rfl
        have hcHigh := (hc.cofactor (t := s.table) level true).mono hs₁.grows.size_le
        obtain ⟨high, s₂, hhigh, hs₂, -, hrunHigh⟩ :=
          ih _ (hrank ▸ Call.rank_cofactor_lt hlevel true) hs₁.wellFormed hcHigh rfl
        have hexpand := Table.expand_branch hlevel hlow hhigh
        -- The branch is in the table now, so that its call may be remembered.
        rw [hexpand] at hsettles hrange
        have hs₃ := hs₂.wellFormed.with_table hsettles.wellFormed
          (s₂.table.grows_branch level low high)
        have hs₄ := hs₃.wellFormed.remember hrange hsettles.settled
        refine ⟨_, _, hexpand, ((hs₁.trans hs₂).trans hs₃).trans hs₄,
          ⟨hrange, hsettles.settled, .inr ?_⟩, fun frames => ?_⟩
        · rw [known?, Call.immediate?_grows hsettles.grows hc, (Option.or_eq_none_iff.mp hknown).1,
            Option.none_or, Std.HashMap.getElem?_insert_self]
        · rw [run_split s frames hlevel hknown, hrunLow, run_low, hrunHigh, run_high]

end Machine

namespace Store

variable [LawfulScalar α] {levels : Nat} {s s' : Store α} {c : Call} {d : Nat}

/-- A call whose result is known is carried out without any change. -/
theorem Knows.perform (hs : s.WellFormed levels) (h : s.Knows c d) : s.perform c = (d, s) :=
  (Machine.run_knows hs h []).trans (Machine.run_of_done rfl)

theorem WellFormed.exists_perform (hs : s.WellFormed levels) (hc : c.InRange s.table.size) :
    ∃ d s', s.perform c = (d, s') ∧ s.table.expand c = (d, s'.table) ∧ s.Keeps levels s' ∧
      s'.Knows c d := by
  obtain ⟨d, s', hexpand, hkeeps, hknows, hrun⟩ := Machine.run_call hs hc
  exact ⟨d, s', (hrun []).trans (Machine.run_of_done rfl), hexpand, hkeeps, hknows⟩

theorem WellFormed.keeps_perform (hs : s.WellFormed levels) (hc : c.InRange s.table.size) :
    s.Keeps levels (s.perform c).2 := by
  obtain ⟨d, s', hperform, -, hkeeps, -⟩ := hs.exists_perform hc
  rwa [hperform]

theorem WellFormed.knows_perform (hs : s.WellFormed levels) (hc : c.InRange s.table.size) :
    (s.perform c).2.Knows c (s.perform c).1 := by
  obtain ⟨d, s', hperform, -, -, hknows⟩ := hs.exists_perform hc
  rwa [hperform]

theorem WellFormed.perform (hs : s.WellFormed levels) (hc : c.InRange s.table.size) :
    (s.perform c).2.WellFormed levels ∧ (s.perform c).1 = (s.table.expand c).1 ∧
      (s.perform c).2.table = (s.table.expand c).2 := by
  obtain ⟨d, s', hperform, hexpand, hkeeps, -⟩ := hs.exists_perform hc
  rw [hperform, hexpand]
  exact ⟨hkeeps.wellFormed, rfl, rfl⟩

/-- A call is carried out at every point. -/
theorem WellFormed.value_perform (hs : s.WellFormed levels) (hc : c.InRange s.table.size)
    (truth : Nat → Bool) :
    (s.perform c).2.table.value truth (s.perform c).1 =
      Scalar.canonical (c.compute (s.table.value truth)) := by
  rw [(hs.knows_perform hc).settled.value, Call.compute_grows (hs.keeps_perform hc).grows hc]

end Store

end DecisionDiagrams
